import BindingIdl.Proofs.Text.Stretch
import BindingIdl.Proofs.Token.Gaps

/-!
# Nothing is lost

A scan accounts for its text: every byte is in a token, in a gap, or in the fault and what stands
behind it. `Scan.Accounts` says this with the places alone, as a reader of the tokens sees them. The
tokens are stretches of the text, one behind the other, and whatever they leave over is a gap.

The walk is cut into gaps and tokens already (`Scan.cuts_walk`). Each part of the statement is an
induction on that, for a reader who stands somewhere in the text; a gap may come in several pieces,
so the induction about gaps carries along what has been passed over since the last token.
-/

namespace BindingIdl

namespace Scan

/-- Where the reading ends: at the fault if there is one, otherwise behind the text. -/
def ending (text : String) (scan : Scan) : Nat :=
  match scan.fault with
  | some e => e.span.start
  | none => text.utf8ByteSize

/-- Where the stretches that the tokens leave over begin and end: the one before the first token,
those between neighbours, and the one behind the last token. -/
def leftovers (text : String) (scan : Scan) : List (Nat × Nat) :=
  (0 :: scan.tokens.map (·.span.stop)).zip (scan.tokens.map (·.span.start) ++ [scan.ending text])

/-- The scan accounts for every byte of the text. -/
structure Accounts (text : String) (scan : Scan) : Prop where
  /-- A token carries the slice of the text at its span, and the line on which it starts. -/
  token : ∀ t ∈ scan.tokens, ∃ s : Stretch text, s.span = t.span ∧ s.part = t.text
  nonempty : ∀ t ∈ scan.tokens, t.span.start < t.span.stop
  ordered : scan.tokens.Pairwise fun t u => t.span.stop ≤ u.span.start
  gap : ∀ place ∈ scan.leftovers text, ∃ s : Stretch text,
    s.start = place.1 ∧ s.stop = place.2 ∧ IsGap s.behind.toList s.part.toList
  fault : ∀ e ∈ scan.fault, ∃ s : Stretch text, s.span = e.span ∧ s.part = e.text ∧
    e.cause.Explains s.part.toList s.behind.toList

variable {text : String} {p : Position} {cs : List Char} {scan : Scan}

/-- Each token is a stretch, with the text it has. -/
theorem Cuts.stretch (h : Cuts p cs scan) (hp : Stretch.Stands text p cs) :
    ∀ t ∈ scan.tokens, ∃ s : Stretch text, s.span = t.span ∧ s.part = t.text := by
  induction h with
  | done => simp
  | gap _ _ ih => exact ih hp.advance
  | token _ _ ih =>
    rintro t (_ | ⟨_, ht⟩)
    · obtain ⟨s, hspan, hpart, -⟩ := hp.exists_stretch
      exact ⟨s, hspan, hpart⟩
    · exact ih hp.advance t ht
  | fault => simp

/-- No token starts before the place where the reading began. -/
theorem Cuts.le_start (h : Cuts p cs scan) : ∀ t ∈ scan.tokens, p.offset ≤ t.span.start := by
  induction h with
  | done => simp
  | gap _ _ ih => exact fun t ht => (Position.offset_le_afterAll _ _).trans (ih t ht)
  | token _ _ ih =>
    rintro t (_ | ⟨_, ht⟩)
    · exact le_rfl
    · exact (Position.offset_le_afterAll _ _).trans (ih t ht)
  | fault => simp

/-- Each token ends before the next one begins. -/
theorem Cuts.ordered (h : Cuts p cs scan) :
    scan.tokens.Pairwise fun t u => t.span.stop ≤ u.span.start := by
  induction h with
  | done => exact .nil
  | gap _ _ ih => exact ih
  | token _ hrest ih => exact .cons (fun u hu => hrest.le_start u hu) ih
  | fault => exact .nil

/-- A token has one character at least. -/
theorem Cuts.nonempty (h : Cuts p cs scan) : ∀ t ∈ scan.tokens, t.span.start < t.span.stop := by
  induction h with
  | done => simp
  | gap _ _ ih => exact ih
  | token hspells _ ih =>
    rintro t (_ | ⟨_, ht⟩)
    · exact Position.offset_lt_afterAll _ hspells.ne_nil
    · exact ih t ht
  | fault => simp

/-- What is left over from `q` on, when `gap` has been passed over since the last token ended
there. -/
theorem Cuts.leftovers (h : Cuts p cs scan) {q : Position} {gap : List Char}
    (hq : Stretch.Stands text q (gap ++ cs)) (hp : q.afterAll gap = p) (hgap : IsGap cs gap) :
    ∀ place ∈ (q.offset :: scan.tokens.map (·.span.stop)).zip
        (scan.tokens.map (·.span.start) ++ [scan.ending text]),
      ∃ s : Stretch text, s.start = place.1 ∧ s.stop = place.2 ∧
        IsGap s.behind.toList s.part.toList := by
  induction h generalizing q gap with
  | @done p =>
    obtain ⟨s, hspan, hpart, hbehind⟩ := hq.exists_stretch
    have hend : p.offset = text.utf8ByteSize := by
      have hall := hq.advance
      rw [hp] at hall
      rw [hall.eq_of_nil]
    rintro place (_ | ⟨_, ⟨⟩⟩)
    refine ⟨s, congrArg Span.start hspan, ?_, ?_⟩
    · exact (congrArg Span.stop hspan).trans ((congrArg Position.offset hp).trans hend)
    · simpa [hpart, hbehind] using hgap
  | @gap p more rest scan hmore _ ih =>
    -- a gap behind a gap: the place in between is not listed
    refine @ih q (gap ++ more) ?_ ?_ (hmore.append hgap)
    · rwa [List.append_assoc]
    · rw [Position.afterAll_append, hp]
  | @token p kind spelling rest scan _ _ ih =>
    obtain ⟨s, hspan, hpart, hbehind⟩ := hq.exists_stretch
    have hrest : Stretch.Stands text (p.afterAll spelling) ([] ++ rest) := by
      rw [← hp]
      exact hq.advance.advance
    -- the gap ends where the token begins, and the next one starts empty behind it
    rintro place (_ | ⟨_, hplace⟩)
    · refine ⟨s, congrArg Span.start hspan, ?_, ?_⟩
      · exact (congrArg Span.stop hspan).trans (congrArg Position.offset hp)
      · simpa [hpart, hbehind] using hgap
    · exact ih hrest rfl .nil place hplace
  | @fault p cause taken behind _ =>
    obtain ⟨s, hspan, hpart, hbehind⟩ := hq.exists_stretch
    rintro place (_ | ⟨_, ⟨⟩⟩)
    refine ⟨s, congrArg Span.start hspan, ?_, ?_⟩
    · exact (congrArg Span.stop hspan).trans (congrArg Position.offset hp)
    · simpa [hpart, hbehind] using hgap

/-- What stops the scan is a stretch too, and what comes behind it shows why. -/
theorem Cuts.fault_stretch (h : Cuts p cs scan) (hp : Stretch.Stands text p cs) :
    ∀ e ∈ scan.fault, ∃ s : Stretch text, s.span = e.span ∧ s.part = e.text ∧
      e.cause.Explains s.part.toList s.behind.toList := by
  induction h with
  | done => rintro e ⟨⟩
  | gap _ _ ih => exact ih hp.advance
  | token _ _ ih => exact ih hp.advance
  | fault hexplains =>
    rintro e ⟨⟩
    obtain ⟨s, hspan, hpart, hbehind⟩ := hp.exists_stretch
    refine ⟨s, hspan, hpart, ?_⟩
    rw [hpart, hbehind, String.toList_ofList, String.toList_ofList]
    exact hexplains

/-- Scanning a text accounts for every byte of it. -/
theorem ofText_accounts (text : String) : (ofText text).Accounts text where
  token := (cuts_ofText text).stretch (Stretch.stands_origin text)
  nonempty := (cuts_ofText text).nonempty
  ordered := (cuts_ofText text).ordered
  gap := (cuts_ofText text).leftovers (q := .origin) (Stretch.stands_origin text) rfl .nil
  fault := (cuts_ofText text).fault_stretch (Stretch.stands_origin text)

example :
    (ofText "a /* b */ c // d").leftovers "a /* b */ c // d" = [(0, 0), (1, 10), (11, 16)] := by
  decide

end Scan

end BindingIdl
