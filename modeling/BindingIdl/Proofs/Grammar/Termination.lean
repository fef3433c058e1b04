import BindingIdl.Proofs.Grammar.Progress

/-!
# Reading comes to an end

The parsers have two bounds that the grammar knows nothing of: `Parser.collect` repeats a step at
most as often as there are tokens ahead, and `itemsWithin` goes at most as deep into namespaces.
Neither cuts a reading short. `Parser.Repeats` is the repetition of a step with no bound on it, and
`Parser.ReadsItems` says of a reader of items that it repeats its steps so and calls itself for the
body of each namespace, however deep.

A loop that goes on for ever repeats to nothing, and a recursion that does not come back leaves
open what its reader answers. So what is shown here, `Parser.terminates`, is that each loop of the
grammar repeats to something and that there is one reader of items and only one. That reader is
`itemsWithin`.
-/

namespace BindingIdl

/-- What is left when the places where nothing could be read are dropped. -/
def Parsed.somes {α : Type} (p : Parsed (List (Option α))) : Parsed (List α) :=
  ⟨p.outcome.map (·.filterMap id), p.reported, p.next⟩

theorem Parsed.errors_somes {α : Type} (p : Parsed (List (Option α))) :
    p.somes.errors = p.errors := by
  obtain ⟨outcome, reported, next⟩ := p
  cases outcome <;> rfl

namespace Parser

variable {α : Type} {c : Cursor}

/-! ## Loops -/

/-- What a step comes to that is taken again and again until it has nothing to add or is
stopped. -/
inductive Repeats (step : Parser (Option α)) : Cursor → Parsed (List α) → Prop where
  | stopped {c next : Cursor} {d : Diagnostic} {reported : List Diagnostic}
      (last : step c = ⟨.error d, reported, next⟩) : Repeats step c ⟨.error d, reported, next⟩
  | finished {c next : Cursor} {reported : List Diagnostic}
      (last : step c = ⟨.ok none, reported, next⟩) : Repeats step c ⟨.ok [], reported, next⟩
  | more {c mid : Cursor} {a : α} {reported : List Diagnostic} {p : Parsed (List α)}
      (first : step c = ⟨.ok (some a), reported, mid⟩) (others : Repeats step mid p) :
      Repeats step c (p.following [a] reported)

/-- A loop comes to one thing only. -/
theorem Repeats.eq_collect {step : Parser (Option α)} (hstep : Progresses step)
    {p : Parsed (List α)} (h : Repeats step c p) : p = collect step c := by
  induction h with
  | stopped last => exact (collect_of_error hstep last).symm
  | finished last => exact (collect_of_none hstep last).symm
  | more first others ih => rw [collect_of_some hstep first, ih]

/-- A loop comes to its end when each of its steps takes a token. -/
theorem repeats_collect {step : Parser (Option α)} (hstep : Progresses step) (c : Cursor) :
    Repeats step c (collect step c) := by
  induction hn : c.rest.length using Nat.strong_induction_on generalizing c with
  | _ n ih =>
    rcases hrun : step c with ⟨outcome | o, reported, mid⟩
    · rw [collect_of_error hstep hrun]
      exact .stopped hrun
    · cases o with
      | none =>
        rw [collect_of_none hstep hrun]
        exact .finished hrun
      | some a =>
        have hshorter : mid.rest.length < c.rest.length := by
          have := hstep c a (by rw [hrun])
          rwa [hrun] at this
        rw [collect_of_some hstep hrun]
        exact .more hrun (ih mid.rest.length (by omega) mid rfl)

/-- A loop looks at no cursor with more tokens ahead than where it started. -/
theorem Repeats.congr {step step' : Parser (Option α)} {p : Parsed (List α)}
    (h : Repeats step c p) (hshrinks : Shrinks step')
    (hsame : ∀ mid : Cursor, mid.rest.length ≤ c.rest.length → step mid = step' mid) :
    Repeats step' c p := by
  induction h with
  | stopped last =>
    rw [hsame _ (Nat.le_refl _)] at last
    exact .stopped last
  | finished last =>
    rw [hsame _ (Nat.le_refl _)] at last
    exact .finished last
  | @more c mid a reported p first others ih =>
    rw [hsame _ (Nat.le_refl _)] at first
    have hmid : mid.rest.length ≤ c.rest.length := by
      have := hshrinks c
      rwa [first] at this
    exact .more first (ih fun inner hinner => hsame inner (hinner.trans hmid))

theorem collect_congr {step step' : Parser (Option α)} (hstep : Progresses step)
    (hstep' : Progresses step') (hshrinks : Shrinks step')
    (hsame : ∀ mid : Cursor, mid.rest.length ≤ c.rest.length → step mid = step' mid) :
    collect step c = collect step' c :=
  ((repeats_collect hstep c).congr hshrinks hsame).eq_collect hstep'

/-! ## Nesting -/

/-- A reader of items as the grammar has it, inside of namespaces and outside: it repeats its step
without a bound, and the body of a namespace is read by the reader itself. -/
structure ReadsItems (settings : GrammarSettings) (items : Bool → Parser (List Item)) : Prop where
  repeats : ∀ nested c, ∃ p, Repeats (nextItem settings nested (items true)) c p ∧
    items nested c = p.somes

variable {settings : GrammarSettings}

/-- In the view of a run in itself everything is as it is. -/
theorem parsed_further_zero {f : α → α} (hf : ∀ a, f a = a) (p : Parsed α) :
    (View.further settings 0).parsed f p = p := by
  obtain ⟨outcome, reported, next⟩ := p
  cases outcome <;> simp [View.parsed, View.outcome, View.further, hf]

theorem matches_of_eq {p p' : Parser (List Item)} (hsame : p c = p' c)
    (hshorter : (p' c).next.rest.length ≤ c.rest.length) :
    Matches (.further settings 0) p p' (Item.shiftAll (0 : Shift)) c where
  answer := by
    have hshift : c.shift (View.further settings 0).shift = c := c.shift_zero
    rw [hshift, parsed_further_zero Item.shiftAll_zero, hsame]
  stopped _ _ := rfl
  shorter := by rwa [hsame]

/-- The body of a namespace is read behind its keyword, so it is enough that two readers agree on
fewer tokens. -/
theorem nextItem_congr (nested : Bool) {body body' : Parser (List Item)} (hbody' : Shrinks body')
    (hsame : ∀ mid : Cursor, mid.rest.length < c.rest.length → body mid = body' mid) :
    nextItem settings nested body c = nextItem settings nested body' c := by
  have hanswer := (matches_nextItem (v := .further settings 0) (c := c) nested
    fun mid hmid => matches_of_eq (hsame mid hmid) (hbody' mid)).answer
  have hshift : c.shift (View.further settings 0).shift = c := c.shift_zero
  have hself (o : Option (Option Item)) : o.map (Option.map (Item.shift (0 : Shift))) = o := by
    obtain _ | _ | item := o <;> simp
  rw [hshift] at hanswer
  exact (hanswer.trans (parsed_further_zero hself _)).symm

theorem shrinks_nextItem (nested : Bool) {body : Parser (List Item)} (hbody : Shrinks body) :
    Shrinks (nextItem settings nested body) :=
  shrinks_of_matches settings fun _ =>
    matches_nextItem (v := .further settings 0) nested fun mid _ => matches_of_eq rfl (hbody mid)

/-- The reader of items whose bound on the depth are the tokens ahead. -/
def readItems (settings : GrammarSettings) (nested : Bool) : Parser (List Item) :=
  fun c => itemsWithin settings nested c.rest c

theorem shrinks_readItems (nested : Bool) : Shrinks (readItems settings nested) :=
  fun c => shrinks_itemsWithin settings nested c.rest c

/-- The loop over items takes a token at each turn, also where namespaces are read without a
bound. -/
theorem progresses_readItems (nested : Bool) :
    Progresses (nextItem settings nested (readItems settings true)) :=
  progresses_nextItem settings nested (shrinks_readItems true)

/-- What could not be read has no place in the answer. -/
theorem collect_somes_apply {step : Parser (Option (Option α))} (c : Cursor) :
    (collect step >>= fun read => pure (read.filterMap id) : Parser (List α)) c =
      (collect step c).somes := by
  rcases hrun : collect step c with ⟨outcome | read, reported, next⟩
  · rw [bind_of_error _ hrun]
    rfl
  · rw [bind_of_ok _ hrun]
    simp [pure_apply, Parsed.somes, Except.map]

/-- The bound on the depth is never met. -/
theorem readItems_eq_collect (nested : Bool) (c : Cursor) :
    readItems settings nested c =
      (collect (nextItem settings nested (readItems settings true)) c).somes := by
  obtain ⟨rest, stop, n⟩ := c
  cases rest with
  | nil => rfl
  | cons t ahead =>
    have hsame (mid : Cursor) (hmid : mid.rest.length ≤ ahead.length + 1) :
        nextItem settings nested (itemsWithin settings true ahead) mid =
          nextItem settings nested (readItems settings true) mid :=
      nextItem_congr nested (shrinks_readItems true) fun inner hinner =>
        itemsWithin_congr settings true (by omega) (Nat.le_refl _)
    have hcollect := collect_congr (c := ⟨t :: ahead, stop, n⟩)
      (progresses_nextItem settings nested (shrinks_itemsWithin settings true ahead))
      (progresses_readItems nested) (shrinks_nextItem nested (shrinks_readItems true)) hsame
    rw [← hcollect, ← collect_somes_apply]
    rfl

theorem readsItems_readItems (settings : GrammarSettings) :
    ReadsItems settings (readItems settings) where
  repeats nested c :=
    ⟨_, repeats_collect (progresses_readItems nested) c, readItems_eq_collect nested c⟩

/-- By induction on the tokens ahead: the bodies of namespaces have fewer of them. -/
theorem ReadsItems.eq_readItems {items : Bool → Parser (List Item)}
    (h : ReadsItems settings items) : items = readItems settings := by
  funext nested c
  induction hn : c.rest.length using Nat.strong_induction_on generalizing nested c with
  | _ n ih =>
    obtain ⟨p, hp, hitems⟩ := h.repeats nested c
    have hsame (mid : Cursor) (hmid : mid.rest.length ≤ c.rest.length) :
        nextItem settings nested (items true) mid =
          nextItem settings nested (readItems settings true) mid :=
      nextItem_congr nested (shrinks_readItems true) fun inner hinner =>
        ih inner.rest.length (by omega) true inner rfl
    have hbounded := hp.congr (shrinks_nextItem nested (shrinks_readItems true)) hsame
    rw [hitems, hbounded.eq_collect (progresses_readItems nested), readItems_eq_collect]

/-- Each loop of the grammar comes to an end, and to what it is bounded to; and the nesting of
namespaces comes to an end too. -/
structure Terminates (settings : GrammarSettings) : Prop where
  segments : ∀ expected c,
    Repeats (nextSegment expected) c (collect (nextSegment expected) c)
  parameters : ∀ owner member c,
    Repeats (nextParameter owner member) c (collect (nextParameter owner member) c)
  members : ∀ owner c, Repeats (nextMember owner) c (collect (nextMember owner) c)
  items : ∃! items, ReadsItems settings items

/-- Each turn of a loop takes a token or is the last one, and each namespace is read on fewer tokens
than it has around it. -/
theorem terminates (settings : GrammarSettings) : Terminates settings where
  segments expected := repeats_collect (progresses_nextSegment expected)
  parameters owner member := repeats_collect (progresses_nextParameter owner member)
  members owner := repeats_collect (progresses_nextMember owner)
  items := ⟨_, readsItems_readItems settings, fun _ h => h.eq_readItems⟩

end Parser

end BindingIdl
