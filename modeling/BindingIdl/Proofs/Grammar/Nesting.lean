import BindingIdl.Proofs.Grammar.Joining
import BindingIdl.Proofs.Grammar.Spans

/-!
# Spans are nested

A tree is written in the order in which it is read, and what is a part of a construct is written
between the first and the last token of the construct. So the spans in the tree are nested like the
constructs, and those of the parts of one construct come one behind the other.

`Item.Nested` says so of every construct in a tree, and `Span.Exact` what a single span is: it
begins where some token of the text begins, ends where some token ends, and has the line on which it
begins. Both follow from what `Span.Joins` and `Span.Strung` say of the tokens a construct is
written with, since the tokens of a text stand in a row.
-/

namespace BindingIdl

/-! ## The spans of a tree -/

/-- An include line has a span of its own; where no override is attached there is none to list. -/
def IncludeOverride.spans (override : Option IncludeOverride) : List Span :=
  (override.map (·.span)).toList

/-- The span of a member and those of the types it mentions. A parameter is no construct with a
span: it is a type and a name. -/
def MemberDecl.spans (m : MemberDecl) : List Span := m.span :: m.types.map (·.span)

/-- Every span of a class in the order of its text: an include line stands in front of the class
that it is for. -/
def ClassDecl.spans (decl : ClassDecl) : List Span :=
  IncludeOverride.spans decl.override ++ decl.span :: decl.members.flatMap MemberDecl.spans

/-- The span of the whole construct, without that of an include line in front of it. -/
def Item.span : Item → Span
  | .space head _ => head.span
  | .definition decl => decl.span
  | .forward decl => decl.span

mutual

/-- Every span in an item. -/
def Item.spans : Item → List Span
  | .space head items =>
    IncludeOverride.spans head.override ++ head.span :: Item.allSpans items
  | .definition decl => decl.spans
  | .forward decl => [decl.span]

/-- Every span in a list of items. -/
def Item.allSpans : List Item → List Span
  | [] => []
  | item :: rest => item.spans ++ Item.allSpans rest

end

/-- Every span in the tree of a file. -/
def InterfaceFile.spans (file : InterfaceFile) : List Span := Item.allSpans file.items

/-- The span is that of a stretch of the text, not an empty one, from the beginning of a token to
the end of one. Its line is the one on which it begins, as that of every stretch is. -/
structure Span.Exact (text : String) (s : Span) : Prop where
  nonempty : s.start < s.stop
  first : ∃ t ∈ (Scan.ofText text).tokens, t.span.start = s.start
  last : ∃ t ∈ (Scan.ofText text).tokens, t.span.stop = s.stop
  stretch : ∃ st : Stretch text, st.span = s

/-! ## Nested spans -/

/-- All of the spans are inside `outer`, and each ends before the next one begins. -/
structure Span.Holds (outer : Span) (inner : List Span) : Prop where
  within : ∀ s ∈ inner, outer.start ≤ s.start ∧ s.stop ≤ outer.stop
  ordered : inner.Pairwise fun a b => a.stop ≤ b.start

/-- An override stands in front of what it is for. -/
def IncludeOverride.Precedes (override : Option IncludeOverride) (owner : Span) : Prop :=
  ∀ o ∈ override, o.span.stop ≤ owner.start

/-- The types of a signature are inside the member and in the order in which they are written. -/
def MemberDecl.Nested (m : MemberDecl) : Prop := m.span.Holds (m.types.map (·.span))

/-- A class behind its include line, its members inside it and in order, and each member nested in
turn. -/
structure ClassDecl.Nested (decl : ClassDecl) : Prop where
  override : IncludeOverride.Precedes decl.override decl.span
  holds : decl.span.Holds (decl.members.map MemberDecl.span)
  members : ∀ m ∈ decl.members, m.Nested

mutual

/-- A block is like a class: behind its include line, its items inside it and in order. A forward
declaration has no parts. -/
def Item.Nested : Item → Prop
  | .space head items =>
    IncludeOverride.Precedes head.override head.span ∧ head.span.Holds (items.map Item.span) ∧
      Item.AllNested items
  | .definition decl => decl.Nested
  | .forward _ => True

/-- The parts of every item are inside it and in order. -/
def Item.AllNested : List Item → Prop
  | [] => True
  | item :: rest => item.Nested ∧ Item.AllNested rest

end

/-- The items of a file come one behind the other, and the parts of each are nested. Nothing
encloses the items, as a file has no span. -/
structure InterfaceFile.Nested (file : InterfaceFile) : Prop where
  ordered : (file.items.map Item.span).Pairwise fun a b => a.stop ≤ b.start
  items : Item.AllNested file.items

/-! ## Tokens in a row -/

/-- No token is empty, and each ends before the next one begins. -/
structure Token.InRow (ts : List Token) : Prop where
  ordered : Token.Ordered ts
  nonempty : ∀ t ∈ ts, t.span.start < t.span.stop

namespace Token.InRow

variable {ts us : List Token} {first last : Token}

theorem sublist (h : InRow us) (hsub : ts.Sublist us) : InRow ts :=
  ⟨h.ordered.sublist hsub, fun t ht => h.nonempty t (hsub.subset ht)⟩

theorem left (h : InRow (ts ++ us)) : InRow ts := h.sublist (List.sublist_append_left ts us)

theorem right (h : InRow (ts ++ us)) : InRow us := h.sublist (List.sublist_append_right ts us)

/-- Nothing in a row begins before its first token. -/
theorem start_le (h : InRow ts) (hfirst : ts.head? = some first) :
    ∀ t ∈ ts, first.span.start ≤ t.span.start := by
  obtain ⟨ts, rfl⟩ := List.head?_eq_some_iff.mp hfirst
  rintro t (_ | ⟨_, ht⟩)
  · exact Nat.le_refl _
  · have hle := (List.pairwise_cons.mp h.ordered).1 t ht
    exact (Nat.le_of_lt (h.nonempty first List.mem_cons_self)).trans hle

/-- Nothing in a row ends behind its last token. -/
theorem le_stop (h : InRow ts) (hlast : ts.getLast? = some last) :
    ∀ t ∈ ts, t.span.stop ≤ last.span.stop := by
  obtain ⟨ts, rfl⟩ := List.getLast?_eq_some_iff.mp hlast
  intro t ht
  obtain ht | ht := List.mem_append.mp ht
  · have hle := (List.pairwise_append.mp h.ordered).2.2 t ht last (List.mem_singleton_self last)
    exact hle.trans (Nat.le_of_lt (h.nonempty last (by simp)))
  · rw [List.mem_singleton.mp ht]

/-- Tokens in a row are covered by the first and the last of them. -/
theorem cover_eq (h : InRow ts) (hfirst : ts.head? = some first) (hlast : ts.getLast? = some last) :
    first.span.cover last.span = ⟨first.span.start, last.span.stop, first.span.line⟩ := by
  have hstart := h.start_le hfirst last (List.mem_of_getLast? hlast)
  have hstop := h.le_stop hlast first (List.mem_of_head? hfirst)
  rw [Span.cover, min_eq_left hstart, max_eq_right hstop, if_pos hstart]

/-- What joins some tokens in a row, one thing behind the other, is inside the cover of them all. -/
theorem holds (h : InRow ts) (hfirst : ts.head? = some first) (hlast : ts.getLast? = some last)
    {spans : List Span} (hspans : Span.Strung ts spans) :
    (first.span.cover last.span).Holds spans := by
  refine ⟨fun s hs => ?_, hspans.ordered⟩
  obtain ⟨t, ht, u, hu, rfl⟩ := hspans.joins s hs
  rw [h.cover_eq hfirst hlast]
  exact ⟨le_min (h.start_le hfirst t ht) (h.start_le hfirst u hu),
    max_le (h.le_stop hlast t ht) (h.le_stop hlast u hu)⟩

end Token.InRow

/-- In a scanned text, what joins two of its tokens is an exact span of that text. -/
theorem Span.Joins.exact {text : String} {ts : List Token} {s : Span}
    (hscan : Scan.ofText text = ⟨ts, none⟩) (h : s.Joins ts) : s.Exact text := by
  have hplaced := Scan.ofText_accounts text
  rw [hscan] at hplaced
  refine ⟨h.start_lt_stop hplaced.nonempty, ?_, ?_,
    h.exists_stretch ⟨hplaced.token, hplaced.ordered⟩⟩
  all_goals
    obtain ⟨t, ht, u, hu, rfl⟩ := h
    rw [hscan, Span.cover]
  · obtain hle | hle := Nat.le_total t.span.start u.span.start
    · exact ⟨t, ht, (min_eq_left hle).symm⟩
    · exact ⟨u, hu, (min_eq_right hle).symm⟩
  · obtain hle | hle := Nat.le_total t.span.stop u.span.stop
    · exact ⟨u, hu, (max_eq_right hle).symm⟩
    · exact ⟨t, ht, (max_eq_left hle).symm⟩

namespace Grammar

variable {settings : GrammarSettings} {n n' : NodeId} {ts : List Token}

/-! ## Members and classes -/

/-- A member is the cover of its first and last token, and its types are strung between them. -/
theorem IsMember.nested {owner : String} {read : ReadMember} (h : IsMember owner n ts read n')
    (hts : Token.InRow ts) : read.decl.Nested := by
  have htypes := h.strung_types hts.ordered
  have whole (hne : ts ≠ []) : (spanOf ts).Holds (read.decl.types.map (·.span)) := by
    have hfirst := List.head?_eq_some_head hne
    have hlast := List.getLast?_eq_some_getLast hne
    rw [spanOf_eq_cover hfirst hlast]
    exact hts.holds hfirst hlast htypes
  cases h <;> exact whole (by simp)

theorem IsMembers.nested {owner : String} {members : List ReadMember}
    (h : IsMembers owner n ts members n') (hts : Token.InRow ts) :
    ∀ read ∈ members, read.decl.Nested := by
  induction h with
  | nil => simp
  | cons hmember _ ih =>
    rintro read (_ | ⟨_, hread⟩)
    · exact hmember.nested hts.left
    · exact ih hts.right read hread

/-- An include line ends before what it is for begins: its tokens are those in front. -/
theorem IsOverride.precedes {override : Option IncludeOverride} {us : List Token}
    (h : IsOverride ts override) (hts : Token.Ordered (ts ++ us)) {owner : Span}
    (howner : owner.Joins us) : IncludeOverride.Precedes override owner := by
  cases h with
  | absent => rintro o ⟨⟩
  | present ht =>
    rintro o ⟨⟩
    exact (Span.joins_of_mem (List.mem_singleton_self _)).before howner
      (List.pairwise_append.mp hts).2.2

/-- The include line is left out of the cover, the members are strung inside it. -/
theorem IsClass.nested {decl : ClassDecl} (h : IsClass settings n ts decl n')
    (hts : Token.InRow ts) : decl.Nested := by
  obtain ⟨before, keyword, name, opening, inner, closing, semi, members, n'', rfl, hoverride,
    hmembers, hdecls, hspan⟩ := h.split
  have hrow := hts.right.left
  have hinner : inner.Sublist (keyword :: name :: opening :: inner ++ [closing]) :=
    sublist_between [keyword, name] inner [closing] opening
  refine ⟨hoverride.precedes hts.ordered ?_, ?_, fun m hm => ?_⟩
  · exact ⟨keyword, by simp, closing, by simp, hspan⟩
  · rw [hspan, hdecls, List.map_map]
    exact hrow.holds rfl List.getLast?_concat
      ((hmembers.strung (hrow.sublist hinner).ordered).mono hinner.subset)
  · rw [hdecls] at hm
    obtain ⟨read, hread, rfl⟩ := List.mem_map.mp hm
    exact hmembers.nested (hrow.sublist hinner) read hread

/-! ## Items -/

/-- An item covers tokens of its own only, with or without an include line. -/
theorem IsItem.joins {item : Item} (h : IsItem settings n ts item n') : item.span.Joins ts := by
  cases h with
  | space _ _ _ _ _ hclosing =>
    refine ⟨_, ?_, _, ?_, rfl⟩
    · simp
    · cases hclosing <;> simp
  | definition hclass => exact hclass.joins
  | forward hforward => exact hforward.joins

/-- The spans of the items of one list, one behind the other. -/
theorem IsItems.strung {items : List Item} (h : IsItems settings n ts items n')
    (hts : Token.Ordered ts) : Span.Strung ts (items.map Item.span) := by
  induction items generalizing n ts with
  | nil => exact .nil
  | cons item items ih =>
    cases h with
    | cons hitem hitems =>
      have hrest := ih hitems (List.pairwise_append.mp hts).2.1
      exact (Span.Strung.single hitem.joins).append hrest hts

/-- By induction on the derivation: a block holds what its items string, and the rest of the list
goes on behind it. -/
theorem IsItems.nested {items : List Item} (h : IsItems settings n ts items n')
    (hts : Token.InRow ts) : Item.AllNested items := by
  induction items using Item.induction generalizing n ts n' with
  | nil => trivial
  | space head items rest ih ihrest =>
    cases h with
    | cons hitem hitems =>
      refine ⟨?_, ihrest hitems hts.right⟩
      obtain ⟨before, keyword, names, opening, inner, closing, behind, n'', rfl, hoverride, hinside,
        hspan⟩ := hitem.split
      have hrow := hts.left.right.left
      have hinner := sublist_between (keyword :: names) inner [closing] opening
      refine ⟨hoverride.precedes hts.left.ordered ?_, ?_, ih hinside (hrow.sublist hinner)⟩
      · exact ⟨keyword, by simp, closing, by simp, hspan⟩
      · rw [hspan]
        exact hrow.holds rfl List.getLast?_concat
          ((hinside.strung (hrow.sublist hinner).ordered).mono hinner.subset)
  | definition decl rest ih =>
    cases h with
    | cons hitem hitems =>
      cases hitem with
      | definition hclass => exact ⟨hclass.nested hts.left, ih hitems hts.right⟩
  | forward decl rest ih =>
    cases h with
    | cons hitem hitems => exact ⟨trivial, ih hitems hts.right⟩

/-! ## Every span -/

theorem IsOverride.joins {override : Option IncludeOverride} (h : IsOverride ts override) :
    ∀ s ∈ IncludeOverride.spans override, s.Joins ts := by
  cases h with
  | absent => simp [IncludeOverride.spans]
  | present => simpa [IncludeOverride.spans] using Span.joins_of_mem (List.mem_singleton_self _)

theorem IsMembers.joins {owner : String} {members : List ReadMember}
    (h : IsMembers owner n ts members n') (hts : Token.Ordered ts) :
    ∀ s ∈ (members.map (·.decl)).flatMap MemberDecl.spans, s.Joins ts := by
  induction h with
  | nil => simp
  | cons hmember _ ih =>
    obtain ⟨hfirst, hrest, -⟩ := List.pairwise_append.mp hts
    intro s hs
    rw [List.map_cons, List.flatMap_cons, MemberDecl.spans, List.mem_append, List.mem_cons] at hs
    obtain (rfl | hs) | hs := hs
    · exact hmember.joins.mono (List.subset_append_left _ _)
    · exact ((hmember.strung_types hfirst).joins s hs).mono (List.subset_append_left _ _)
    · exact (ih hrest s hs).mono (List.subset_append_right _ _)

theorem IsClass.joins_spans {decl : ClassDecl} (h : IsClass settings n ts decl n')
    (hts : Token.Ordered ts) : ∀ s ∈ decl.spans, s.Joins ts := by
  have hspan := h.joins
  obtain ⟨inner, members, _, hsub, hmembers, hdecls⟩ := h.exists_members
  obtain ⟨before, _, _, _, _, _, _, _, _, rfl, hoverride, -⟩ := h.split
  intro s hs
  rw [ClassDecl.spans, List.mem_append, List.mem_cons, hdecls] at hs
  obtain hs | rfl | hs := hs
  · exact (hoverride.joins s hs).mono (List.subset_append_left _ _)
  · exact hspan
  · exact (hmembers.joins (hts.sublist hsub.sublist) s hs).mono hsub.subset

/-- Every span in a derived tree goes from one token of its derivation to another. -/
theorem IsItems.joins_spans {items : List Item} (h : IsItems settings n ts items n')
    (hts : Token.Ordered ts) : ∀ s ∈ Item.allSpans items, s.Joins ts := by
  induction items using Item.induction generalizing n ts n' with
  | nil => simp [Item.allSpans]
  | space head items rest ih ihrest =>
    cases h with
    | cons hitem hitems =>
      have hspan := hitem.joins
      obtain ⟨inner, _, hsub, hinside⟩ := hitem.exists_items
      obtain ⟨before, _, _, _, _, _, _, _, rfl, hoverride, -⟩ := hitem.split
      obtain ⟨hfirst, hrest, -⟩ := List.pairwise_append.mp hts
      intro s hs
      rw [Item.allSpans, Item.spans, List.mem_append, List.mem_append, List.mem_cons] at hs
      -- the include line, the block itself, what is inside, what is behind
      obtain (hs | rfl | hs) | hs := hs
      · exact (hoverride.joins s hs).mono (by simp)
      · exact hspan.mono (List.subset_append_left _ _)
      · refine (ih hinside (hfirst.sublist hsub.sublist) s hs).mono ?_
        exact List.subset_append_of_subset_left _ hsub.subset
      · exact (ihrest hitems hrest s hs).mono (List.subset_append_right _ _)
  | definition decl rest ih =>
    cases h with
    | cons hitem hitems =>
      obtain ⟨hfirst, hrest, -⟩ := List.pairwise_append.mp hts
      cases hitem with
      | definition hclass =>
        intro s hs
        obtain hs | hs := List.mem_append.mp hs
        · exact (hclass.joins_spans hfirst s hs).mono (List.subset_append_left _ _)
        · exact (ih hitems hrest s hs).mono (List.subset_append_right _ _)
  | forward decl rest ih =>
    cases h with
    | cons hitem hitems =>
      have hforward := hitem.joins
      intro s hs
      obtain rfl | hs := List.mem_cons.mp hs
      · exact hforward.mono (List.subset_append_left _ _)
      · exact (ih hitems (List.pairwise_append.mp hts).2.1 s hs).mono (List.subset_append_right _ _)

end Grammar

/-! ## Texts -/

namespace InterfaceFile

variable {settings : GrammarSettings} {text : String} {file : InterfaceFile}

/-- An accepted text is cut into tokens in a row, which are a derivation of its file. -/
theorem scan_of_ofText (h : ofText settings text = .ok file) : ∃ ts,
    Scan.ofText text = ⟨ts, none⟩ ∧ Token.InRow ts ∧
      Grammar.IsItems settings 0 ts file.items file.nodes.length := by
  obtain ⟨ts, htokens, hitems⟩ := items_of_ofText h
  obtain ⟨us, hscan, hsame⟩ := Token.ofText_eq_ok_iff.mp htokens
  obtain rfl := List.append_cancel_right hsame
  have haccounts := Scan.ofText_accounts text
  rw [hscan] at haccounts
  exact ⟨ts, hscan, ⟨haccounts.ordered, haccounts.nonempty⟩, hitems⟩

/-- The tree of a text that is read is nested. -/
theorem nested_of_ofText (h : ofText settings text = .ok file) : file.Nested := by
  obtain ⟨ts, -, hrow, hitems⟩ := scan_of_ofText h
  exact ⟨(hitems.strung hrow.ordered).ordered, hitems.nested hrow⟩

/-- Every span in the tree of a text that is read is exact. -/
theorem exact_of_ofText (h : ofText settings text = .ok file) :
    ∀ s ∈ file.spans, s.Exact text := by
  obtain ⟨ts, hscan, hrow, hitems⟩ := scan_of_ofText h
  exact fun s hs => (hitems.joins_spans hrow.ordered s hs).exact hscan

end InterfaceFile

end BindingIdl
