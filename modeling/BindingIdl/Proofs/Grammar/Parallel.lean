import BindingIdl.Proofs.Declaration.Shift
import BindingIdl.Proofs.Grammar.Reports

/-!
# Two runs side by side

A file is read twice: once as it is, and once further on, or under other settings. The second run
makes the same choices as the first, and what it answers and reports can be told from the first
run alone. A `View` says how: by how much places and ids are shifted, and which reports are seen
in the second run at all. The only reports that settings decide on are those of crowded members,
so a view may drop them, if the other settings do not ask for one declaration per line.

`Parser.Matches v p p' f c` is the relation between the two parsers at a cursor, and `f` is how the
second answer comes from the first. There is one rule for each primitive and each way to put
parsers together, then one lemma for each parser of the grammar, in the order of the grammar, and
last `Parser.matches_itemsWithin`. The bounds on the depth of namespaces may differ in the two runs,
as long as both are large enough.
-/

namespace BindingIdl

/-! ## Views -/

/-- A member that starts where the one before it ends: the cause that settings decide on. -/
def Cause.isCrowding : Cause → Bool
  | .crowdedLine _ => true
  | _ => false

/-- What a parser complains about whatever the settings are. -/
def Cause.isUnconditional (cause : Cause) : Bool := cause.kind = .grammar && !cause.isCrowding

/-- Unconditional causes are about one place only. -/
theorem Cause.shift_of_isUnconditional {cause : Cause} (h : cause.isUnconditional = true)
    (s : Shift) : cause.shift s = cause := by
  cases cause with
  | duplicateClass | duplicateMember | ambiguousConstructor => cases h
  | _ => rfl

/-- How a run under the settings `own` is seen in one under the settings `other`. -/
structure View where
  shift : Shift
  sees : Diagnostic → Bool
  own : GrammarSettings
  other : GrammarSettings
  sees_unconditional : ∀ d, d.cause.isUnconditional = true → sees d = true
  sees_crowding :
    (other = own ∧ ∀ d, d.cause.isCrowding = true → sees d = true) ∨
      (other.oneDeclarationPerLine = false ∧ ∀ d, d.cause.isCrowding = true → sees d = false)

/-- The view of a run in one further on, under the same settings. -/
def View.further (settings : GrammarSettings) (s : Shift) : View where
  shift := s
  sees _ := true
  own := settings
  other := settings
  sees_unconditional _ _ := rfl
  sees_crowding := .inl ⟨rfl, fun _ _ => rfl⟩

/-! ## Shifted cursors -/

/-- A member as it is read further on: the line on which it ends moves as well. -/
def ReadMember.shift (s : Shift) (read : ReadMember) : ReadMember :=
  ⟨read.decl.shift s, read.endLine + s.lines⟩

/-- The head of a type as it is read further on. Only its last token has a place. -/
def TypeHead.shift (s : Shift) (head : TypeHead) : TypeHead :=
  { head with last := head.last.shift s }

namespace Cursor

variable (s : Shift) (c : Cursor)

/-- A cursor further on: the tokens ahead, the place behind them and the next free id all move. -/
def shift : Cursor := ⟨c.rest.map (·.shift s), c.stop.shift s, c.nextId + s.ids⟩

@[simp] theorem current_shift : (c.shift s).current = c.current.shift s := by
  obtain ⟨rest, stop, n⟩ := c
  cases rest <;> rfl

@[simp] theorem kind_shift : (c.shift s).kind = c.kind := by
  obtain ⟨rest, stop, n⟩ := c
  cases rest <;> rfl

@[simp] theorem atEnd_shift : (c.shift s).atEnd = c.atEnd := by
  simp only [atEnd, kind_shift]

@[simp] theorem advance_shift : (c.shift s).advance = c.advance.shift s := by
  simp [advance, shift]

@[simp] theorem unexpected_shift (expected : Expectation) :
    (c.shift s).unexpected expected = (c.unexpected expected).shift s := by
  simp only [unexpected, atEnd_shift, current_shift]
  split <;> exact (Diagnostic.about_shift s rfl).symm

@[simp] theorem atConstructor_shift (owner : String) :
    (c.shift s).atConstructor owner = c.atConstructor owner := by
  obtain ⟨rest, stop, n⟩ := c
  obtain _ | ⟨name, _ | ⟨paren, rest⟩⟩ := rest <;> rfl

@[simp] theorem shift_zero : c.shift 0 = c := by
  simp [shift]

/-- A complaint about an unexpected token or an early end is seen under every view. -/
theorem unexpected_isUnconditional (expected : Expectation) :
    (c.unexpected expected).cause.isUnconditional = true := by
  rw [unexpected]
  split <;> rfl

end Cursor

@[simp] theorem nameOf_shift (s : Shift) (first : Token) (more : List Token) :
    nameOf (first.shift s) (more.map (·.shift s)) = nameOf first more := by
  cases h : more.getLast? with
  | none => simp [nameOf, h]
  | some last => simp [nameOf, h, ← List.map_dropLast, Function.comp_def]

/-- Which members are crowded is a matter of lines relative to each other, so a shift changes
none. -/
theorem crowded_shift (s : Shift) (reads : List ReadMember) :
    crowded (reads.map (·.shift s)) = (crowded reads).map (·.shift s) := by
  induction reads using crowded.induct with
  | case1 first second rest hline ih =>
    have hline' : (second.shift s).decl.span.line = (first.shift s).endLine := by
      simp [ReadMember.shift, Span.shift, hline]
    rw [crowded, if_pos hline, List.map_cons, List.map_cons, crowded, if_pos hline', List.map_cons,
      ← ih]
    rfl
  | case2 first second rest hline ih =>
    have hline' : (second.shift s).decl.span.line ≠ (first.shift s).endLine := by
      simp [ReadMember.shift, Span.shift, hline]
    rw [crowded, if_neg hline, List.map_cons, List.map_cons, crowded, if_neg hline', ← ih]
    rfl
  | case3 reads hfew =>
    obtain _ | ⟨first, _ | ⟨second, rest⟩⟩ := reads
    · rfl
    · rfl
    · exact absurd rfl (hfew first second rest)

theorem crowdedLine_shift (s : Shift) (name : String) (reads : List ReadMember) :
    ((crowded (reads.map (·.shift s))).map fun decl =>
        Diagnostic.about decl.span (.crowdedLine name)) =
      ((crowded reads).map fun decl => Diagnostic.about decl.span (.crowdedLine name)).map
        (·.shift s) := by
  rw [crowded_shift, List.map_map, List.map_map]
  refine List.map_congr_left fun decl _ => ?_
  simp only [Function.comp_apply, MemberDecl.span_shift]
  exact (Diagnostic.about_shift s rfl).symm

/-- Members that could not be read leave nothing behind in either run. -/
theorem membersRead_shift (s : Shift) (reads : List (Option ReadMember)) :
    (reads.map (Option.map (·.shift s))).filterMap id = (reads.filterMap id).map (·.shift s) := by
  simp [List.filterMap_map, List.map_filterMap]

theorem decls_shift (s : Shift) (reads : List ReadMember) :
    (reads.map (·.shift s)).map (·.decl) = (reads.map (·.decl)).map (·.shift s) := by
  simp [Function.comp_def, ReadMember.shift]

/-- Recovery looks at kinds only. -/
theorem skipMember_shift (s : Shift) (ts : List Token) :
    skipMember (ts.map (·.shift s)) = (skipMember ts).map (·.shift s) := by
  induction ts with
  | nil => rfl
  | cons t ts ih =>
    simp only [List.map_cons, skipMember, Token.kind_shift]
    split <;> first | rfl | exact ih

/-- Recovery looks at the kinds of tokens only, so it gives up at the same place. -/
theorem skipItem_shift (s : Shift) (depth : Nat) (ts : List Token) :
    skipItem depth (ts.map (·.shift s)) = (skipItem depth ts).map (·.shift s) := by
  fun_induction skipItem depth ts with
  | case13 =>
    rename_i ih
    rw [List.map_cons, skipItem.eq_12, ih] <;> assumption
  | _ => simp_all [skipItem]

/-! ## Rules -/

namespace View

variable {α : Type}

/-- An outcome as it is seen: what stops a parser is always seen. -/
def outcome (v : View) (f : α → α) : Except Diagnostic α → Except Diagnostic α
  | .ok a => .ok (f a)
  | .error d => .error (d.shift v.shift)

/-- What a parser answers, as it is seen. -/
def parsed (v : View) (f : α → α) (p : Parsed α) : Parsed α where
  outcome := v.outcome f p.outcome
  reported := (p.reported.filter v.sees).map (·.shift v.shift)
  next := p.next.shift v.shift

end View

namespace Parser

variable {α β : Type}

/-- Started at `c`, parser `p` is seen as `p'`, its answer through `f`; and it never goes back. -/
structure Matches (v : View) (p p' : Parser α) (f : α → α) (c : Cursor) : Prop where
  answer : p' (c.shift v.shift) = v.parsed f (p c)
  stopped : ∀ d, (p c).outcome = .error d → v.sees d = true
  shorter : (p c).next.rest.length ≤ c.rest.length

variable {v : View} {c : Cursor} {f : α → α} {g : β → β}

/-- An answer without a step: the second one has to be what is seen of the first. -/
theorem Matches.pure {a a' : α} (h : a' = f a) : Matches v (pure a) (pure a') f c where
  answer := by
    rw [h]
    rfl
  stopped := nofun
  shorter := Nat.le_refl _

/-- The second parser goes on from what is seen of the first answer. -/
theorem Matches.bind {p p' : Parser α} {q q' : α → Parser β} (h : Matches v p p' f c)
    (hq : ∀ a mid, (p c).outcome = .ok a → mid.rest.length ≤ c.rest.length →
      Matches v (q a) (q' (f a)) g mid) :
    Matches v (p >>= q) (p' >>= q') g c := by
  obtain ⟨hanswer, hstopped, hshorter⟩ := h
  rcases hp : p c with ⟨outcome, reported, mid⟩
  rw [hp] at hanswer hstopped hshorter
  cases outcome with
  | error d =>
    have hrun := bind_of_error q hp
    refine ⟨?_, ?_, ?_⟩ <;> rw [hrun]
    · exact bind_of_error q' hanswer
    · rintro _ ⟨⟩
      exact hstopped d rfl
    · exact hshorter
  | ok a =>
    have hrun := bind_of_ok q hp
    have hrest := hq a mid (by rw [hp]) hshorter
    refine ⟨?_, ?_, ?_⟩ <;> rw [hrun]
    · rw [bind_of_ok q' hanswer, hrest.answer]
      simp only [View.parsed, List.filter_append, List.map_append]
    · exact hrest.stopped
    · exact hrest.shorter.trans hshorter

/-- What stops the first run stops the second, so a view has to see it. -/
theorem matches_fail {d : Diagnostic} (h : v.sees d = true) :
    Matches v (fail d) (fail (d.shift v.shift)) f c where
  answer := rfl
  stopped := by
    rintro _ ⟨⟩
    exact h
  shorter := Nat.le_refl _

/-- A failure for an unconditional cause is seen, at the shifted place. -/
theorem matches_fail_about {s s' : Span} {cause : Cause} (h : cause.isUnconditional = true)
    (hs : s' = s.shift v.shift) :
    Matches v (fail (.about s cause)) (fail (.about s' cause)) f c := by
  subst hs
  rw [← Diagnostic.about_shift v.shift (Cause.shift_of_isUnconditional h v.shift)]
  exact matches_fail (v.sees_unconditional _ h)

theorem matches_refuse {expected : Expectation} :
    Matches v (refuse expected : Parser α) (refuse expected) f c where
  answer := by simp [refuse, View.parsed, View.outcome]
  stopped := by
    rintro _ ⟨⟩
    exact v.sees_unconditional _ (c.unexpected_isUnconditional expected)
  shorter := Nat.le_refl _

/-- A report that is seen is the same report further on. -/
theorem matches_report {d : Diagnostic} (h : v.sees d = true) :
    Matches v (report d) (report (d.shift v.shift)) id c where
  answer := by simp [report, View.parsed, View.outcome, h]
  stopped := nofun
  shorter := Nat.le_refl _

theorem matches_report_about {s s' : Span} {cause : Cause} (h : cause.isUnconditional = true)
    (hs : s' = s.shift v.shift) :
    Matches v (report (.about s cause)) (report (.about s' cause)) id c := by
  subst hs
  rw [← Diagnostic.about_shift v.shift (Cause.shift_of_isUnconditional h v.shift)]
  exact matches_report (v.sees_unconditional _ h)

/-- A condition on names and kinds holds in both runs or in neither. -/
theorem matches_require {holds : Bool} {s s' : Span} {cause : Cause}
    (h : cause.isUnconditional = true) (hs : s' = s.shift v.shift) :
    Matches v (require holds (.about s cause)) (require holds (.about s' cause)) id c := by
  cases holds with
  | true => exact .pure rfl
  | false => exact matches_report_about h hs

/-! ### Where the answer is known -/

/-- Behind two clean steps whose answers are known, the parsers are compared where they come to. -/
theorem Matches.after {p p' : Parser α} {q q' : α → Parser β} {a a' : α} {mid : Cursor}
    (hp : Reads p c a mid) (hp' : Reads p' (c.shift v.shift) a' (mid.shift v.shift))
    (hmid : mid.rest.length ≤ c.rest.length) (h : Matches v (q a) (q' a') g mid) :
    Matches v (p >>= q) (p' >>= q') g c := by
  have hrun : (p >>= q) c = q a mid := bind_of_ok q hp
  have hrun' : (p' >>= q') (c.shift v.shift) = q' a' (mid.shift v.shift) := bind_of_ok q' hp'
  refine ⟨?_, ?_, ?_⟩ <;> rw [hrun]
  · rw [hrun', h.answer]
  · exact h.stopped
  · exact h.shorter.trans hmid

theorem Matches.cursor {q q' : Cursor → Parser β} (h : Matches v (q c) (q' (c.shift v.shift)) g c) :
    Matches v (Parser.cursor >>= q) (Parser.cursor >>= q') g c :=
  .after .cursor .cursor (Nat.le_refl _) h

theorem Matches.kind {q q' : TokenKind → Parser β} (h : Matches v (q c.kind) (q' c.kind) g c) :
    Matches v (Parser.kind >>= q) (Parser.kind >>= q') g c :=
  .after .kind .kind (Nat.le_refl _) (by rwa [c.kind_shift])

theorem Matches.span {q q' : Span → Parser β}
    (h : Matches v (q c.current.span) (q' (c.current.span.shift v.shift)) g c) :
    Matches v (Parser.span >>= q) (Parser.span >>= q') g c :=
  .after .span .span (Nat.le_refl _) (by rwa [c.current_shift])

theorem Matches.next {q q' : Token → Parser β}
    (h : Matches v (q c.current) (q' (c.current.shift v.shift)) g c.advance) :
    Matches v (Parser.next >>= q) (Parser.next >>= q') g c := by
  refine .after (reads_next_iff.mpr ⟨rfl, rfl⟩) (reads_next_iff.mpr ⟨rfl, ?_⟩) ?_ ?_
  · exact (c.advance_shift v.shift).symm
  · exact c.behind_advance.rest.length_le
  · rwa [c.current_shift]

/-! ### Tokens and ids -/

theorem matches_accept {k : TokenKind} :
    Matches v (accept k) (accept k) (Option.map (·.shift v.shift)) c := by
  by_cases h : c.kind = k
  · have hrun : accept k c = ⟨.ok (some c.current), [], c.advance⟩ := if_pos h
    refine ⟨?_, ?_, ?_⟩ <;> rw [hrun]
    · simp [accept, h, View.parsed, View.outcome]
    · intro d hd
      cases hd
    · exact c.behind_advance.rest.length_le
  · have hrun : accept k c = ⟨.ok none, [], c⟩ := if_neg h
    refine ⟨?_, ?_, ?_⟩ <;> rw [hrun]
    · simp [accept, h, View.parsed, View.outcome]
    · intro d hd
      cases hd

/-- The kind is the same in both runs; where it is another one, both complain alike. -/
theorem matches_expect {k : TokenKind} {expected : Expectation} :
    Matches v (expect k expected) (expect k expected) (·.shift v.shift) c := by
  by_cases h : c.kind = k
  · have hrun : expect k expected c = ⟨.ok c.current, [], c.advance⟩ := if_pos h
    refine ⟨?_, ?_, ?_⟩ <;> rw [hrun]
    · simp [expect, h, View.parsed, View.outcome]
    · intro d hd
      cases hd
    · exact c.behind_advance.rest.length_le
  · have hrun : expect k expected c = ⟨.error (c.unexpected expected), [], c⟩ := if_neg h
    refine ⟨?_, ?_, ?_⟩ <;> rw [hrun]
    · simp [expect, h, View.parsed, View.outcome]
    · intro d hd
      cases hd
      exact v.sees_unconditional _ (c.unexpected_isUnconditional expected)

/-- The second run is ahead by a fixed number of ids. -/
theorem matches_freshId : Matches v freshId freshId (· + v.shift.ids) c where
  answer := by simp [freshId, View.parsed, View.outcome, Cursor.shift, Nat.add_right_comm]
  stopped := nofun
  shorter := Nat.le_refl _

/-- Whatever is skipped by kind alone is skipped alike. -/
theorem matches_skip {drop : List Token → List Token} (hsuffix : ∀ ts, drop ts <:+ ts)
    (hshift : ∀ ts, drop (ts.map (·.shift v.shift)) = (drop ts).map (·.shift v.shift)) :
    Matches v (skip drop) (skip drop) id c where
  answer := by simp [skip, View.parsed, View.outcome, Cursor.shift, hshift]
  stopped := nofun
  shorter := (hsuffix c.rest).length_le

/-! ### Recovery and repetition -/

/-- An attempt never fails, and its answer holds what it would have failed with, as it is seen. -/
theorem Matches.attempt {p p' : Parser α} (h : Matches v p p' f c) :
    Matches v (Parser.attempt p) (Parser.attempt p') (v.outcome f) c where
  answer := by
    simp only [Parser.attempt, h.answer]
    rfl
  stopped := nofun
  shorter := h.shorter

/-- What stops the parser inside is seen, so it may be reported. -/
theorem Matches.attempt_bind {p p' : Parser α} {q q' : Except Diagnostic α → Parser β}
    (h : Matches v p p' f c)
    (ok : ∀ a mid, mid.rest.length ≤ c.rest.length → Matches v (q (.ok a)) (q' (.ok (f a))) g mid)
    (error : ∀ d mid, mid.rest.length ≤ c.rest.length → v.sees d = true →
      Matches v (q (.error d)) (q' (.error (d.shift v.shift))) g mid) :
    Matches v (Parser.attempt p >>= q) (Parser.attempt p' >>= q') g c := by
  refine h.attempt.bind fun r mid hr hmid => ?_
  cases r with
  | ok a => exact ok a mid hmid
  | error d => exact error d mid hmid (h.stopped d (Except.ok.inj hr))

/-- Steps that match do so again and again. -/
theorem matches_collectWithin {step step' : Parser (Option α)} (ahead : List Token) {c : Cursor}
    (hstep : ∀ mid : Cursor, mid.rest.length ≤ c.rest.length →
      Matches v step step' (Option.map f) mid) :
    Matches v (collectWithin step ahead) (collectWithin step' (ahead.map (·.shift v.shift)))
      (List.map f) c := by
  induction ahead generalizing c with
  | nil =>
    refine (hstep c (Nat.le_refl _)).bind fun o mid _ _ => .pure ?_
    cases o <;> rfl
  | cons t ahead ih =>
    refine (hstep c (Nat.le_refl _)).bind fun o mid _ hmid => ?_
    cases o with
    | none => exact .pure rfl
    | some a =>
      exact (ih fun c hc => hstep c (hc.trans hmid)).bind fun as next _ _ => .pure rfl

/-- A loop, by strong induction on the tokens ahead: each turn matches, so both loops turn as often
and stop together. -/
theorem matches_collect {step step' : Parser (Option α)}
    (hstep : ∀ mid : Cursor, mid.rest.length ≤ c.rest.length →
      Matches v step step' (Option.map f) mid) :
    Matches v (collect step) (collect step') (List.map f) c := by
  obtain ⟨hanswer, hstopped, hshorter⟩ := matches_collectWithin c.rest hstep
  exact ⟨hanswer, hstopped, hshorter⟩

end Parser

/-! ## Names and types -/

namespace Parser

variable {v : View} {c : Cursor}

theorem matches_nextSegment (expected : Expectation) :
    Matches v (nextSegment expected) (nextSegment expected) (Option.map (·.shift v.shift)) c := by
  refine matches_accept.bind fun o mid _ _ => ?_
  cases o with
  | none => exact .pure rfl
  | some colons => exact matches_expect.bind fun _ _ _ _ => .pure rfl

theorem matches_segments (expected : Expectation) :
    Matches v (collect (nextSegment expected)) (collect (nextSegment expected))
      (List.map (·.shift v.shift)) c :=
  matches_collect fun _ _ => matches_nextSegment expected

theorem matches_qualifiedName (expected : Expectation) :
    Matches v (qualifiedName expected) (qualifiedName expected)
      (Prod.map id (·.shift v.shift)) c := by
  refine matches_expect.bind fun first _ _ _ => ?_
  refine (matches_segments expected).bind fun more _ _ _ => .pure ?_
  simp

theorem matches_typeHead : Matches v typeHead typeHead (·.shift v.shift) c := by
  refine (matches_qualifiedName .typeName).bind fun name mid _ _ => .kind ?_
  dsimp only [Prod.map_fst, id_eq]
  split
  · exact .pure rfl
  · split
    · exact matches_refuse
    · refine .next ((matches_qualifiedName .pointee).bind fun inner _ _ _ => ?_)
      exact matches_expect.bind fun close _ _ _ => .pure rfl

theorem matches_indirection :
    Matches v indirection indirection (Prod.map id (Option.map (·.shift v.shift))) c := by
  refine matches_accept.bind fun o mid _ _ => ?_
  cases o with
  | some mark => exact .pure rfl
  | none =>
    refine matches_accept.bind fun o _ _ _ => ?_
    cases o with
    | some mark => exact .pure rfl
    | none => exact .pure rfl

theorem matches_typeExpr : Matches v typeExpr typeExpr (·.shift v.shift) c := by
  refine .span (matches_accept.bind fun const? _ _ _ => ?_)
  refine matches_typeHead.bind fun head _ _ _ => ?_
  refine matches_indirection.bind fun mark _ _ _ => ?_
  refine matches_freshId.bind fun id _ _ _ => .pure ?_
  cases mark.2 <;> simp [TypeExpr.shift, TypeHead.shift]

/-! ## Members -/

theorem matches_parameter (owner member : String) :
    Matches v (parameter owner member) (parameter owner member) (·.shift v.shift) c := by
  refine matches_typeExpr.bind fun type _ _ _ => ?_
  refine matches_expect.bind fun name mid _ _ => .kind ?_
  split
  · exact .span (matches_fail_about rfl rfl)
  · exact matches_freshId.bind fun _ _ _ _ => .pure rfl

theorem matches_nextParameter (owner member : String) :
    Matches v (nextParameter owner member) (nextParameter owner member)
      (Option.map (·.shift v.shift)) c := by
  refine .kind ?_
  split
  · exact .pure rfl
  · refine (matches_parameter owner member).bind fun param mid _ _ => .kind ?_
    split
    · exact matches_expect.bind fun _ _ _ _ => .pure rfl
    · exact .pure rfl

theorem matches_parameters (owner member : String) :
    Matches v (parameters owner member) (parameters owner member)
      (List.map (·.shift v.shift)) c := by
  refine matches_expect.bind fun opening _ _ _ => ?_
  refine (matches_collect fun _ _ => matches_nextParameter owner member).bind fun params _ _ _ => ?_
  exact .next (.pure rfl)

theorem matches_constructorDecl (owner : String) (start : Span) :
    Matches v (constructorDecl owner start) (constructorDecl owner (start.shift v.shift))
      (·.shift v.shift) c := by
  refine .next ((matches_parameters owner owner).bind fun params _ _ _ => ?_)
  refine matches_expect.bind fun semi _ _ _ => ?_
  refine matches_freshId.bind fun id _ _ _ => .pure ?_
  simp [ReadMember.shift, MemberDecl.shift, Span.line_shift]

theorem matches_requireMethodName (owner : String) (isStatic : Bool) (name : Token) :
    Matches v (requireMethodName owner isStatic name)
      (requireMethodName owner isStatic (name.shift v.shift)) id c := by
  cases isStatic with
  | true => exact matches_require rfl rfl
  | false => exact matches_require rfl rfl

theorem matches_constMark (owner : String) (isStatic : Bool) (name : String) :
    Matches v (constMark owner isStatic name) (constMark owner isStatic name) id c := by
  refine matches_accept.bind fun o mid _ _ => ?_
  cases o with
  | none => exact .pure rfl
  | some mark => exact (matches_require rfl rfl).bind fun _ _ _ _ => .pure rfl

theorem matches_methodDecl (owner : String) (start : Span) (isStatic : Bool) :
    Matches v (methodDecl owner start isStatic) (methodDecl owner (start.shift v.shift) isStatic)
      (·.shift v.shift) c := by
  refine matches_typeExpr.bind fun returns _ _ _ => ?_
  refine matches_expect.bind fun name _ _ _ => ?_
  refine (matches_requireMethodName owner isStatic name).bind fun _ _ _ _ => ?_
  refine (matches_parameters owner name.text).bind fun params _ _ _ => ?_
  refine (matches_constMark owner isStatic name.text).bind fun isConst _ _ _ => ?_
  refine matches_expect.bind fun semi _ _ _ => ?_
  refine matches_freshId.bind fun id _ _ _ => .pure ?_
  simp [ReadMember.shift, MemberDecl.shift]

/-- A member begins with a constructor in both runs or in neither. -/
theorem matches_member (owner : String) :
    Matches v (member owner) (member owner) (·.shift v.shift) c := by
  refine .span (matches_accept.bind fun o mid _ _ => ?_)
  cases o with
  | some mark => exact matches_methodDecl owner _ true
  | none =>
    refine .cursor ?_
    rw [mid.atConstructor_shift]
    split
    · exact matches_constructorDecl owner _
    · exact matches_methodDecl owner _ false

/-! ## Classes -/

/-- One turn of the loop over members. A broken member is reported and skipped in both runs. -/
theorem matches_nextMember (owner : String) :
    Matches v (nextMember owner) (nextMember owner)
      (Option.map (Option.map (·.shift v.shift))) c := by
  refine .kind ?_
  split
  · exact .pure rfl
  · exact matches_refuse
  · exact matches_refuse
  · refine (matches_member owner).attempt_bind (fun _ _ _ => .pure rfl) fun d mid _ hd => ?_
    refine (matches_report hd).bind fun _ _ _ _ => ?_
    exact (matches_skip skipMember_suffix (skipMember_shift v.shift)).bind fun _ _ _ _ => .pure rfl

theorem reportAll_apply (ds : List Diagnostic) (c : Cursor) : reportAll ds c = ⟨.ok (), ds, c⟩ := by
  induction ds with
  | nil => rfl
  | cons d ds ih =>
    simp only [reportAll, List.forM_eq_forM, List.forM_cons] at ih ⊢
    have hreport : report d c = ⟨.ok (), [d], c⟩ := rfl
    rw [bind_of_ok _ hreport, ih]
    rfl

/-- Reports that are not seen are as good as not made. -/
theorem matches_reportAll (ds : List Diagnostic) :
    Matches v (reportAll ds) (reportAll ((ds.filter v.sees).map (·.shift v.shift))) id c where
  answer := by simp [reportAll_apply, View.parsed, View.outcome]
  stopped := by
    rw [reportAll_apply]
    nofun
  shorter := by rw [reportAll_apply]

/-- Members on one line are reported in both runs or seen in none. -/
theorem matches_reportAll_when {α : Type} {apart apart' : Bool} (happart : apart' = apart)
    {ds ds' : List Diagnostic} (hds : ∀ d ∈ ds, d.cause.isCrowding = true)
    (hds' : ds' = ds.map (·.shift v.shift)) {p p' : Parser α} {f : α → α}
    (hp : ∀ c, Matches v p p' f c) (c : Cursor) :
    Matches v
      (if (v.own.oneDeclarationPerLine && apart) = true then reportAll ds >>= fun _ => p else p)
      (if (v.other.oneDeclarationPerLine && apart') = true then reportAll ds' >>= fun _ => p'
        else p') f c := by
  subst happart hds'
  obtain ⟨hsame, hall⟩ | ⟨hoff, hnone⟩ := v.sees_crowding
  · have hfilter : ds.filter v.sees = ds := List.filter_eq_self.mpr fun d hd => hall d (hds d hd)
    rw [hsame]
    split
    · have hreports := matches_reportAll (v := v) (c := c) ds
      rw [hfilter] at hreports
      exact hreports.bind fun _ next _ _ => hp next
    · exact hp c
  · have hfilter : ds.filter v.sees = [] :=
      List.filter_eq_nil_iff.mpr fun d hd => by simp [hnone d (hds d hd)]
    have hskip : ¬(v.other.oneDeclarationPerLine && apart') = true := by simp [hoff]
    rw [if_neg hskip]
    split
    · have hreports := matches_reportAll (v := v) (c := c) ds
      rw [hfilter] at hreports
      change Matches v _ (reportAll [] >>= fun _ => p') f c
      exact hreports.bind fun _ next _ _ => hp next
    · exact hp c

/-- The one place that settings decide on: under the other settings crowded members may go
unreported. -/
theorem matches_classBody (start : Span) (name : String) (override : Option IncludeOverride) :
    Matches v (classBody v.own start name override)
      (classBody v.other (start.shift v.shift) name (override.map (·.shift v.shift)))
      (·.shift v.shift) c := by
  refine matches_expect.bind fun opening _ _ _ => ?_
  refine (matches_collect fun _ _ => matches_nextMember name).bind fun read mid _ _ => .next ?_
  have hcrowding : ∀ d ∈ (crowded (read.filterMap id)).map fun decl =>
      Diagnostic.about decl.span (.crowdedLine name), d.cause.isCrowding = true := by
    rw [List.forall_mem_map]
    exact fun _ _ => rfl
  -- whether the braces share a line is the same in both runs
  have happart (opening closing : Span) :
      decide ((opening.shift v.shift).line ≠ (closing.shift v.shift).line) =
        decide (opening.line ≠ closing.line) := by
    simp
  have hend (c : Cursor) : Matches v
      (freshId >>= fun n => pure (ClassDecl.mk n name override ((read.filterMap id).map (·.decl))
        (start.cover mid.current.span)))
      (freshId >>= fun n => pure (ClassDecl.mk n name (override.map (·.shift v.shift))
        (((read.filterMap id).map (·.shift v.shift)).map (·.decl))
        ((start.shift v.shift).cover (mid.current.span.shift v.shift)))) (·.shift v.shift) c := by
    refine matches_freshId.bind fun n _ _ _ => .pure ?_
    rw [decls_shift, Span.cover_shift]
    rfl
  rw [membersRead_shift]
  refine matches_accept.bind fun semi _ _ _ => ?_
  cases semi with
  | some semi =>
    exact matches_reportAll_when (happart _ _) hcrowding (crowdedLine_shift _ _ _) hend _
  | none =>
    refine .cursor ?_
    rw [Cursor.unexpected_shift]
    refine (matches_report (v.sees_unconditional _ (Cursor.unexpected_isUnconditional _ _))).bind
      fun _ _ _ _ => ?_
    exact matches_reportAll_when (happart _ _) hcrowding (crowdedLine_shift _ _ _) hend _

theorem matches_reportDangling (override : IncludeOverride) :
    Matches v (reportDangling override) (reportDangling (override.shift v.shift)) id c :=
  matches_report_about rfl rfl

theorem matches_qualifiedForward (start : Span) (first : Token) :
    Matches v (qualifiedForward start first)
      (qualifiedForward (start.shift v.shift) (first.shift v.shift)) id c := by
  refine (matches_segments .className).bind fun more mid _ _ => .span ?_
  refine matches_expect.bind fun _ _ _ _ => ?_
  rw [nameOf_shift, Span.cover_shift, Span.extent_shift]
  exact matches_report (v.sees_unconditional _ rfl)

theorem matches_classItem (override : Option IncludeOverride) :
    Matches v (classItem v.own override)
      (classItem v.other (override.map (·.shift v.shift))) (Option.map (Item.shift v.shift)) c := by
  refine .next (matches_expect.bind fun name mid _ _ => .kind ?_)
  split
  · exact (matches_qualifiedForward _ name).bind fun _ _ _ _ => .pure rfl
  · refine (matches_require rfl rfl).bind fun _ _ _ _ => ?_
    refine matches_accept.bind fun semi _ _ _ => ?_
    cases semi with
    | none => exact (matches_classBody _ name.text override).bind fun _ _ _ _ => .pure rfl
    | some semi =>
      have hdangling (c : Cursor) : Matches v (override.forM reportDangling)
          ((override.map (·.shift v.shift)).forM reportDangling) id c := by
        cases override with
        | none => exact .pure rfl
        | some o => exact matches_reportDangling o
      refine (hdangling _).bind fun _ _ _ _ => ?_
      refine matches_freshId.bind fun _ _ _ _ => .pure ?_
      simp [Item.shift, ForwardDecl.shift]

/-! ## Namespaces -/

theorem matches_closingName (marker : Token) :
    Matches v (closingName marker) (closingName (marker.shift v.shift)) id c := by
  have hline (s t : Span) :
      decide ((s.shift v.shift).line = (t.shift v.shift).line) = decide (s.line = t.line) := by
    simp
  refine .span ?_
  rw [Token.kind_shift, Token.span_shift, hline]
  split
  · refine matches_accept.bind fun name _ _ _ => .pure ?_
    cases name <;> rfl
  · exact .pure rfl

/-- A namespace, whose keyword is ahead. Its body is shorter than what it is read from. -/
theorem matches_namespaceItem {body body' : Parser (List Item)} (override : Option IncludeOverride)
    (hbody : ∀ mid : Cursor, mid.rest.length < c.rest.length →
      Matches v body body' (Item.shiftAll v.shift) mid)
    (hkeyword : c.kind = .namespaceKeyword) :
    Matches v (namespaceItem body override)
      (namespaceItem body' (override.map (·.shift v.shift))) (Item.shift v.shift) c := by
  have hadvance : c.advance.rest.length < c.rest.length := by
    have hne := Cursor.rest_ne_nil_of_kind hkeyword (by decide)
    have := List.length_pos_iff.mpr hne
    simp only [Cursor.advance, List.length_tail]
    omega
  refine .next (matches_accept.bind fun name mid₂ _ h₂ => ?_)
  -- with or without a name, both sides check the same text
  have hrequire : Matches v
      (name.forM fun t => require (startsLower t.text) (.about t.span (.namespaceName t.text)))
      ((name.map (·.shift v.shift)).forM fun t =>
        require (startsLower t.text) (.about t.span (.namespaceName t.text))) id mid₂ := by
    cases name with
    | none => exact .pure rfl
    | some t => exact matches_require rfl rfl
  have hname : (name.map (·.shift v.shift)).map (·.text) = name.map (·.text) := by
    cases name <;> rfl
  refine hrequire.bind fun _ mid₃ _ h₃ => ?_
  refine matches_expect.bind fun opening mid₄ _ h₄ => ?_
  refine (hbody mid₄ (by omega)).bind fun items mid₅ _ _ => .cursor ?_
  rw [mid₅.atEnd_shift, hname]
  split
  · exact matches_fail_about rfl rfl
  · refine .next ((matches_closingName _).bind fun closeName _ _ _ => ?_)
    refine matches_freshId.bind fun id _ _ _ => .pure ?_
    simp [Item.shift, NamespaceHead.shift]

/-! ## Items -/

theorem matches_includeOverride :
    Matches v includeOverride includeOverride (Option.map (·.shift v.shift)) c := by
  refine matches_accept.bind fun t _ _ _ => .pure ?_
  cases t <;> rfl

/-- An item, if the body of a block matches. The body is shorter than what is ahead, which the
induction below uses. -/
theorem matches_item {body body' : Parser (List Item)}
    (hbody : ∀ mid : Cursor, mid.rest.length < c.rest.length →
      Matches v body body' (Item.shiftAll v.shift) mid) :
    Matches v (item v.own body) (item v.other body') (Option.map (Item.shift v.shift)) c := by
  refine matches_includeOverride.bind fun override mid _ hmid => .kind ?_
  split
  · rename_i hkind
    refine (matches_namespaceItem override (fun c hc => hbody c (hc.trans_le hmid)) hkind).bind
      fun _ _ _ _ => .pure rfl
  · exact matches_classItem override
  · cases override with
    | none => exact matches_refuse
    | some dangling => exact (matches_reportDangling dangling).bind fun _ _ _ _ => .pure rfl

theorem matches_closing (nested : Bool) :
    Matches v
      (if nested then pure none else span >>= fun s => fail (.about s .unmatchedNamespaceEnd) :
        Parser (Option (Option Item)))
      (if nested then pure none else span >>= fun s => fail (.about s .unmatchedNamespaceEnd))
      (Option.map (Option.map (Item.shift v.shift))) c := by
  split
  · exact .pure rfl
  · exact .span (matches_fail_about rfl rfl)

/-- One turn of the loop over items, again for any body that matches on fewer tokens. -/
theorem matches_nextItem (nested : Bool) {body body' : Parser (List Item)}
    (hbody : ∀ mid : Cursor, mid.rest.length < c.rest.length →
      Matches v body body' (Item.shiftAll v.shift) mid) :
    Matches v (nextItem v.own nested body) (nextItem v.other nested body')
      (Option.map (Option.map (Item.shift v.shift))) c := by
  refine .kind ?_
  split
  · exact .pure rfl
  · exact matches_closing nested
  · exact matches_closing nested
  · refine (matches_item hbody).attempt_bind (fun _ _ _ => .pure rfl) fun d mid _ hd => .cursor ?_
    rw [mid.atEnd_shift]
    split
    · exact matches_fail hd
    · refine (matches_report hd).bind fun _ _ _ _ => ?_
      exact (matches_skip (skipItem_suffix 0) (skipItem_shift v.shift 0)).bind fun _ _ _ _ =>
        .pure rfl

/-- Where no token is ahead there are no items, whatever the bound. -/
theorem itemsWithin_of_rest_eq_nil (settings : GrammarSettings) (nested : Bool)
    (ahead : List Token) (h : c.rest = []) :
    itemsWithin settings nested ahead c = ⟨.ok [], [], c⟩ := by
  obtain ⟨rest, stop, n⟩ := c
  subst h
  cases ahead <;> rfl

/-- Without tokens ahead the bound on the depth does not matter: both runs answer at once. -/
theorem matches_itemsWithin_of_rest_eq_nil (nested : Bool) (ahead ahead' : List Token)
    (h : c.rest = []) :
    Matches v (itemsWithin v.own nested ahead) (itemsWithin v.other nested ahead')
      (Item.shiftAll v.shift) c := by
  have h' : (c.shift v.shift).rest = [] := by simp [Cursor.shift, h]
  refine ⟨?_, ?_, ?_⟩ <;> rw [itemsWithin_of_rest_eq_nil _ _ _ h]
  · rw [itemsWithin_of_rest_eq_nil _ _ _ h']
    rfl
  · nofun

/-- The bounds need not be the same, and each only has to be enough for the tokens ahead. -/
theorem matches_itemsWithin (nested : Bool) (ahead ahead' : List Token)
    (enough : c.rest.length ≤ ahead.length) (enough' : c.rest.length ≤ ahead'.length) :
    Matches v (itemsWithin v.own nested ahead) (itemsWithin v.other nested ahead')
      (Item.shiftAll v.shift) c := by
  induction ahead generalizing nested ahead' c with
  | nil => exact matches_itemsWithin_of_rest_eq_nil nested _ _ (by simpa using enough)
  | cons t ahead ih =>
    cases ahead' with
    | nil => exact matches_itemsWithin_of_rest_eq_nil nested _ _ (by simpa using enough')
    | cons t' ahead' =>
      simp only [List.length_cons] at enough enough'
      have hstep (mid : Cursor) (hmid : mid.rest.length ≤ c.rest.length) :=
        matches_nextItem (c := mid) nested fun inner hinner =>
          ih true ahead' (c := inner) (by omega) (by omega)
      refine (matches_collect hstep).bind fun items _ _ _ => .pure ?_
      rw [Item.shiftAll_eq_map]
      simp [List.filterMap_map, List.map_filterMap]

/-- The bound on the depth of namespaces does not matter as long as it is enough. -/
theorem itemsWithin_congr (settings : GrammarSettings) (nested : Bool) {ahead ahead' : List Token}
    (enough : c.rest.length ≤ ahead.length) (enough' : c.rest.length ≤ ahead'.length) :
    itemsWithin settings nested ahead c = itemsWithin settings nested ahead' c := by
  have hsame (a : List Token) (ha : c.rest.length ≤ a.length) :=
    (matches_itemsWithin (v := .further settings 0) nested c.rest a (Nat.le_refl _) ha).answer
  have hshift : c.shift (View.further settings 0).shift = c := c.shift_zero
  rw [hshift] at hsame
  exact (hsame ahead enough).trans (hsame ahead' enough').symm

end Parser

/-! ## Files -/

/-- All that a parser complains about: its reports, then what stopped it. -/
def Parsed.errors {α : Type} (p : Parsed α) : List Diagnostic :=
  p.reported ++ match p.outcome with
    | .ok _ => []
    | .error d => [d]

/-- What stops a run is always seen, so the errors of what is seen are those that are seen. -/
theorem View.errors_parsed {α : Type} {v : View} {f : α → α} {p : Parsed α}
    (h : ∀ d, p.outcome = .error d → v.sees d = true) :
    (v.parsed f p).errors = (p.errors.filter v.sees).map (·.shift v.shift) := by
  obtain ⟨outcome, reported, next⟩ := p
  cases outcome with
  | ok a => simp [Parsed.errors, View.parsed, View.outcome]
  | error d => simp [Parsed.errors, View.parsed, View.outcome, h d rfl]

namespace InterfaceFile

variable {settings : GrammarSettings} {size : Nat} {tokens : List Token}

/-- The run that reads a file. -/
def reading (settings : GrammarSettings) (size : Nat) (tokens : List Token) : Parsed (List Item) :=
  itemsWithin settings false (beginning size tokens).rest (beginning size tokens)

/-- A file is accepted when nothing is wrong with it, and otherwise refused for all that is. -/
theorem ofTokens_cases (settings : GrammarSettings) (size : Nat) (tokens : List Token) :
    (∃ items, (reading settings size tokens).outcome = .ok items ∧
      (reading settings size tokens).errors = [] ∧ ofTokens settings size tokens = .ok ⟨items⟩) ∨
    ((reading settings size tokens).errors ≠ [] ∧
      ofTokens settings size tokens = .error (reading settings size tokens).errors) := by
  unfold reading ofTokens
  dsimp only
  rcases itemsWithin settings false (beginning size tokens).rest (beginning size tokens) with
    ⟨outcome, reported, next⟩
  cases outcome with
  | error d => exact .inr ⟨by simp [Parsed.errors], by cases reported <;> rfl⟩
  | ok items =>
    cases reported with
    | nil => exact .inl ⟨items, rfl, rfl, rfl⟩
    | cons d ds => exact .inr ⟨by simp [Parsed.errors], by simp [Parsed.errors]⟩

/-- Where a file is read, its reading ends with the items of the file and no error. -/
theorem outcome_of_ofTokens {file : InterfaceFile} (h : ofTokens settings size tokens = .ok file) :
    (reading settings size tokens).outcome = .ok file.items := by
  obtain ⟨items, hitems, -, hok⟩ | ⟨-, herror⟩ := ofTokens_cases settings size tokens
  · rw [hok] at h
    cases h
    exact hitems
  · rw [herror] at h
    cases h

/-- Two runs over the same tokens come to the same, and the second has the errors that are seen. -/
theorem reading_view (v : View) (hv : v.shift = 0) (size : Nat) (tokens : List Token) :
    (reading v.other size tokens).outcome = (reading v.own size tokens).outcome ∧
      (reading v.other size tokens).errors =
        (reading v.own size tokens).errors.filter v.sees := by
  have hmatches := Parser.matches_itemsWithin (v := v) (c := beginning size tokens) false
    (beginning size tokens).rest (beginning size tokens).rest (Nat.le_refl _) (Nat.le_refl _)
  have hanswer := hmatches.answer
  have hcursor : (beginning size tokens).shift v.shift = beginning size tokens := by
    rw [hv, Cursor.shift_zero]
  rw [hcursor] at hanswer
  refine ⟨?_, ?_⟩
  · rw [reading, hanswer, ← reading]
    simp only [View.parsed]
    cases (reading v.own size tokens).outcome with
    | ok items => simp [View.outcome, hv]
    | error d => simp [View.outcome, hv]
  · rw [reading, hanswer, View.errors_parsed hmatches.stopped, hv]
    simp [reading]

end InterfaceFile

end BindingIdl
