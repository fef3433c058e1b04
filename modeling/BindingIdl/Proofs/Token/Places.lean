import BindingIdl.Proofs.Token.Accounting

/-!
# Tokens in their places

What is known about the places of the tokens of a text, with the end of the file as the last of
them: each is where it says, and they come one behind the other (`Token.Placed`).

Everything that is read from tokens covers the text from one token to another. `Span.Joins ts` is
that property of a span. Spans that join the tokens of two neighbouring stretches of a file are
apart (`Span.Joins.before`), so that the parts of a construct are in the order of their tokens:
`Span.Strung` says so of a list of them.
-/

namespace BindingIdl

/-- Each token ends before the next one begins. -/
abbrev Token.Ordered (ts : List Token) : Prop := ts.Pairwise fun t u => t.span.stop ≤ u.span.start

/-- The tokens are those of the text, each at its place and all in order. -/
structure Token.Placed (text : String) (ts : List Token) : Prop where
  stretch : ∀ t ∈ ts, ∃ s : Stretch text, s.span = t.span ∧ s.part = t.text
  ordered : Token.Ordered ts

theorem Token.Placed.sublist {text : String} {ts us : List Token} (h : Placed text us)
    (hsub : ts.Sublist us) : Placed text ts :=
  ⟨fun t ht => h.stretch t (hsub.subset ht), h.ordered.sublist hsub⟩

theorem Token.endOf_stretch (text : String) :
    ∃ s : Stretch text, s.span = (endOf text).span ∧ s.part = (endOf text).text := by
  have hstands : Stretch.Stands text (Position.origin.afterAll text.toList) ([] ++ []) :=
    ⟨text.toList, by simp, rfl⟩
  obtain ⟨s, hspan, hpart, -⟩ := hstands.exists_stretch
  exact ⟨s, hspan, hpart⟩

/-- The end of a file stands behind its last byte. -/
theorem Token.start_endOf (text : String) : (endOf text).span.start = text.utf8ByteSize := by
  have hstands : Stretch.Stands text (Position.origin.afterAll text.toList) [] :=
    ⟨text.toList, by simp, rfl⟩
  exact congrArg Position.offset hstands.eq_of_nil

/-- The tokens that a text is cut into are in their places. -/
theorem Token.placed_of_ofText {text : String} {ts : List Token} (h : ofText text = .ok ts) :
    Placed text ts := by
  have hcuts := Scan.cuts_ofText text
  have hstretch := hcuts.stretch (Stretch.stands_origin text)
  obtain ⟨us, hscan, rfl⟩ := ofText_eq_ok_iff.mp h
  rw [hscan] at hcuts hstretch
  constructor
  · intro t ht
    obtain ht | ht := List.mem_append.mp ht
    · exact hstretch t ht
    · rw [List.mem_singleton.mp ht]
      exact endOf_stretch text
  · refine List.pairwise_append.mpr
      ⟨hcuts.ordered, List.pairwise_singleton _ _, fun t ht u hu => ?_⟩
    obtain ⟨s, hspan, -⟩ := hstretch t ht
    rw [List.mem_singleton.mp hu, start_endOf, ← hspan]
    exact s.stop_le

namespace Span

/-- The span covers the text from one of the tokens to one of them. -/
def Joins (ts : List Token) (s : Span) : Prop := ∃ t ∈ ts, ∃ u ∈ ts, s = t.span.cover u.span

variable {ts us : List Token} {s s' : Span}

/-- What joins two of some tokens joins two of more. -/
theorem Joins.mono (h : s.Joins ts) (hsub : ts ⊆ us) : s.Joins us := by
  obtain ⟨t, ht, u, hu, rfl⟩ := h
  exact ⟨t, hsub ht, u, hsub hu, rfl⟩

theorem joins_of_mem {t : Token} (h : t ∈ ts) : t.span.Joins ts :=
  ⟨t, h, t, h, (cover_self t.span).symm⟩

/-- What is between two tokens of a text is a stretch of it. -/
theorem Joins.exists_stretch {text : String} (h : s.Joins ts) (hts : Token.Placed text ts) :
    ∃ st : Stretch text, st.span = s := by
  obtain ⟨t, ht, u, hu, rfl⟩ := h
  obtain ⟨first, hfirst, -⟩ := hts.stretch t ht
  obtain ⟨last, hlast, -⟩ := hts.stretch u hu
  rw [← hfirst, ← hlast]
  exact first.exists_span_cover last

/-- It is not empty, as its tokens are not. -/
theorem Joins.start_lt_stop (h : s.Joins ts) (hts : ∀ t ∈ ts, t.span.start < t.span.stop) :
    s.start < s.stop := by
  obtain ⟨t, ht, u, -, rfl⟩ := h
  exact (min_le_left _ _).trans_lt ((hts t ht).trans_le (le_max_left _ _))

/-- What joins the tokens in front ends before what joins those behind begins. -/
theorem Joins.before (h : s.Joins ts) (h' : s'.Joins us)
    (hapart : ∀ t ∈ ts, ∀ u ∈ us, t.span.stop ≤ u.span.start) : s.stop ≤ s'.start := by
  obtain ⟨t, ht, u, hu, rfl⟩ := h
  obtain ⟨v, hv, w, hw, rfl⟩ := h'
  exact max_le (le_min (hapart t ht v hv) (hapart t ht w hw))
    (le_min (hapart u hu v hv) (hapart u hu w hw))

/-- Spans that join some of the tokens, one behind the other. -/
structure Strung (ts : List Token) (spans : List Span) : Prop where
  joins : ∀ s ∈ spans, s.Joins ts
  ordered : spans.Pairwise fun a b => a.stop ≤ b.start

namespace Strung

variable {spans more : List Span}

theorem nil : Strung ts [] := ⟨by simp, .nil⟩

theorem single (h : s.Joins ts) : Strung ts [s] := ⟨by simpa using h, List.pairwise_singleton _ _⟩

theorem mono (h : Strung ts spans) (hsub : ts ⊆ us) : Strung us spans :=
  ⟨fun s hs => (h.joins s hs).mono hsub, h.ordered⟩

theorem sublist (h : Strung ts spans) (hsub : more.Sublist spans) : Strung ts more :=
  ⟨fun s hs => h.joins s (hsub.subset hs), h.ordered.sublist hsub⟩

/-- What is strung on the second part comes behind what is strung on the first. -/
theorem append (h : Strung ts spans) (h' : Strung us more)
    (hts : Token.Ordered (ts ++ us)) :
    Strung (ts ++ us) (spans ++ more) where
  joins s hs := by
    obtain hs | hs := List.mem_append.mp hs
    · exact (h.joins s hs).mono (List.subset_append_left ts us)
    · exact (h'.joins s hs).mono (List.subset_append_right ts us)
  ordered := List.pairwise_append.mpr ⟨h.ordered, h'.ordered, fun a ha b hb =>
    (h.joins a ha).before (h'.joins b hb) (List.pairwise_append.mp hts).2.2⟩

end Strung

end Span

end BindingIdl
