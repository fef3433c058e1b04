import BindingIdl.Proofs.Grammar.Termination
import BindingIdl.Proofs.Grammar.Violations

/-!
# Errors are paid for with tokens

A file has at most as many errors as tokens. Constructs do not keep to that bound one by one: a
member may be refused where it starts, with nothing taken, and a class body without an end costs
an error at a token that is not its own. So tokens are counted as an income. `Parser.Pays credit p
left c` says that parser `p`, with `credit` saved up before cursor `c`, pays one for each error out
of its savings and of the tokens it takes, and that `left a` is saved up behind the answer `a`.

There is one rule for each primitive and each way to put parsers together, then one lemma for each
parser of the grammar. A construct that can be given up is paid for in one of two ways
(`Parser.Begins`): either it takes tokens and needs no savings, or it is refused where it starts,
and then recovery drops a token that pays for the refusal.
-/

namespace BindingIdl

namespace Parser

variable {α β : Type} {c : Cursor}

/-! ## Savings -/

/-- Errors and what is saved up in the end come to at most what was saved up and the tokens
taken. -/
structure Pays (credit : Nat) (p : Parser α) (left : α → Nat) (c : Cursor) : Prop where
  answered : ∀ a, (p c).outcome = .ok a →
    (p c).reported.length + left a + (p c).next.rest.length ≤ credit + c.rest.length
  stopped : ∀ d, (p c).outcome = .error d →
    (p c).reported.length + 1 + (p c).next.rest.length ≤ credit + c.rest.length

variable {k : Nat}

/-- Further savings are not touched, and nobody has to keep all that is left. -/
theorem Pays.weaken {p : Parser α} {left left' : α → Nat} {k' : Nat} (h : Pays k p left c)
    (hk : k ≤ k') (hleft : ∀ a, left' a + k ≤ left a + k') : Pays k' p left' c where
  answered a ha := by
    have := h.answered a ha
    have := hleft a
    omega
  stopped d hd := by
    have := h.stopped d hd
    omega

/-- Without a step nothing is paid, and no more is left than there was. -/
theorem Pays.pure {a : α} {left : α → Nat} (h : left a ≤ k) : Pays k (pure a) left c where
  answered := by
    rintro _ ⟨⟩
    simp only [pure_apply, List.length_nil]
    omega
  stopped := nofun

/-- What the first parser leaves is what the second starts with. -/
theorem Pays.bind {p : Parser α} {f : α → Parser β} {mid : α → Nat} {left : β → Nat}
    (hp : Pays k p mid c) (hf : ∀ a next, Pays (mid a) (f a) left next) :
    Pays k (p >>= f) left c := by
  obtain ⟨hanswered, hstopped⟩ := hp
  rcases hrun : p c with ⟨outcome, reported, next⟩
  rw [hrun] at hanswered hstopped
  cases outcome with
  | error d =>
    refine ⟨?_, ?_⟩ <;> rw [bind_of_error f hrun]
    · nofun
    · rintro _ ⟨⟩
      exact hstopped d rfl
  | ok a =>
    have hfirst := hanswered a rfl
    refine ⟨fun b hb => ?_, fun d hd => ?_⟩ <;> rw [bind_of_ok f hrun] at *
    · have := (hf a next).answered b hb
      simp only [List.length_append] at *
      omega
    · have := (hf a next).stopped d hd
      simp only [List.length_append] at *
      omega

/-- Behind a step whose answer is known, the tokens it took are an income. -/
theorem Pays.behind {p : Parser α} {f : α → Parser β} {left : β → Nat} {a : α} {next : Cursor}
    (income : Nat) (hp : Reads p c a next) (hnext : next.rest.length + income ≤ c.rest.length)
    (hf : Pays (k + income) (f a) left next) : Pays k (p >>= f) left c := by
  have hrun : (p >>= f) c = f a next := bind_of_ok f hp
  refine ⟨fun b hb => ?_, fun d hd => ?_⟩ <;> rw [hrun] at *
  · have := hf.answered b hb
    omega
  · have := hf.stopped d hd
    omega

/-- Behind a step that only looks. -/
theorem Pays.after {p : Parser α} {f : α → Parser β} {left : β → Nat} {a : α}
    (hp : Reads p c a c) (hf : Pays k (f a) left c) : Pays k (p >>= f) left c :=
  .behind 0 hp (Nat.le_refl _) hf

/-! ### Primitives -/

/-- Taking a token costs nothing. -/
theorem pays_next : Pays k next (fun _ => k) c where
  answered _ _ := by
    have := c.behind_advance.rest.length_le
    simp only [next, List.length_nil]
    omega
  stopped := nofun

/-- The token ahead is an income. -/
theorem pays_next_of_kind {kind : TokenKind} (h : c.kind = kind) (hkind : kind ≠ .endOfFile) :
    Pays k next (fun _ => k + 1) c where
  answered _ _ := by
    have := length_advance h hkind
    simp only [next, List.length_nil]
    omega
  stopped := nofun

theorem pays_freshId : Pays k freshId (fun _ => k) c where
  answered _ _ := by simp [freshId]
  stopped := nofun

/-- A token that is taken is an income, one that is not costs nothing. -/
theorem pays_accept {kind : TokenKind} (hkind : kind ≠ .endOfFile) :
    Pays k (accept kind) (fun o => o.elim k fun _ => k + 1) c := by
  by_cases h : c.kind = kind
  · have hrun : accept kind c = ⟨.ok (some c.current), [], c.advance⟩ := if_pos h
    have := length_advance h hkind
    refine ⟨?_, ?_⟩ <;> rw [hrun]
    · rintro _ ⟨⟩
      simp only [List.length_nil, Option.elim_some]
      omega
    · nofun
  · have hrun : accept kind c = ⟨.ok none, [], c⟩ := if_neg h
    refine ⟨?_, ?_⟩ <;> rw [hrun]
    · rintro _ ⟨⟩
      simp
    · nofun

/-- To stop costs one error, which has to be saved up. -/
theorem pays_fail (d : Diagnostic) (left : α → Nat) : Pays (k + 1) (fail d) left c where
  answered := nofun
  stopped _ _ := by
    simp only [fail, List.length_nil]
    omega

theorem pays_refuse (expected : Expectation) (left : α → Nat) :
    Pays (k + 1) (refuse expected) left c := by
  obtain ⟨-, hstopped⟩ := pays_fail (k := k) (c := c) (c.unexpected expected) left
  exact ⟨nofun, hstopped⟩

theorem pays_report (d : Diagnostic) : Pays (k + 1) (report d) (fun _ => k) c where
  answered _ _ := by
    simp only [report, List.length_singleton]
    omega
  stopped := nofun

theorem pays_require (holds : Bool) (d : Diagnostic) :
    Pays (k + 1) (require holds d) (fun _ => k) c := by
  cases holds with
  | true => exact .pure (Nat.le_succ k)
  | false => exact pays_report d

theorem pays_reportAll (ds : List Diagnostic) :
    Pays (k + ds.length) (reportAll ds) (fun _ => k) c where
  answered _ _ := by
    simp only [reportAll_apply]
    omega
  stopped := by
    rw [reportAll_apply]
    nofun

/-- What the steps of a repetition are good for together. -/
def total (worth : α → Nat) : List α → Nat
  | [] => 0
  | a :: as => worth a + total worth as

/-- A repetition keeps its savings up, and adds what each of its steps is good for. -/
theorem pays_collect {step : Parser (Option α)} {worth : α → Nat}
    (hstep : ∀ c, Pays k step (fun o => o.elim k fun a => k + worth a) c) :
    Pays k (collect step) (fun as => k + total worth as) c := by
  have hwithin (ahead : List Token) (c : Cursor) :
      Pays k (collectWithin step ahead) (fun as => k + total worth as) c := by
    induction ahead generalizing c with
    | nil =>
      refine (hstep c).bind fun o next => .pure ?_
      cases o <;> simp [total]
    | cons t ahead ih =>
      refine (hstep c).bind fun o next => ?_
      cases o with
      | none => exact .pure (Nat.le_refl _)
      | some a =>
        have hrest : Pays (k + worth a) (collectWithin step ahead)
            (fun as => k + worth a + total worth as) next :=
          (ih next).weaken (Nat.le_add_right _ _) fun as => by omega
        refine hrest.bind fun as _ => .pure ?_
        rw [total, Nat.add_assoc]
  obtain ⟨hanswered, hstopped⟩ := hwithin c.rest c
  exact ⟨hanswered, hstopped⟩

/-! ## Constructs that can be given up -/

/-- Either the parser is refused where it starts, or it needs no savings. -/
def Begins (p : Parser α) (left : α → Nat) (c : Cursor) : Prop := Refuses p c ∨ Pays 0 p left c

/-- With something saved up, a refusal is paid for as well. -/
theorem Begins.pays {p : Parser α} {left : α → Nat} (h : Begins p left c) :
    Pays (k + 1) p (fun a => left a + k + 1) c := by
  obtain ⟨d, hd⟩ | hpays := h
  · refine ⟨?_, ?_⟩ <;> rw [hd]
    · nofun
    · intro _ _
      simp only [List.length_nil]
      omega
  · exact hpays.weaken (Nat.zero_le _) fun a => Nat.le_refl _

/-- Behind its first part a construct is paid for by what that part took. -/
theorem Begins.bind {p : Parser α} {f : α → Parser β} {mid : α → Nat} {left : β → Nat}
    (hp : Begins p mid c) (hf : ∀ a next, Pays (mid a) (f a) left next) :
    Begins (p >>= f) left c := by
  obtain ⟨d, hd⟩ | hpays := hp
  · exact .inl ⟨d, bind_of_error f hd⟩
  · exact .inr (hpays.bind hf)

/-- Behind a step that only looks. -/
theorem Begins.after {p : Parser α} {f : α → Parser β} {left : β → Nat} {a : α}
    (hp : Reads p c a c) (hf : Begins (f a) left c) : Begins (p >>= f) left c := by
  obtain hrefuses | hpays := hf
  · exact .inl (hrefuses.after hp)
  · exact .inr (hpays.after hp)

/-- A token may be missing where it is looked for first. -/
theorem begins_expect {kind : TokenKind} (hkind : kind ≠ .endOfFile) (expected : Expectation) :
    Begins (expect kind expected) (fun _ => 1) c := by
  by_cases h : c.kind = kind
  · have hrun : expect kind expected c = ⟨.ok c.current, [], c.advance⟩ := if_pos h
    have := length_advance h hkind
    refine .inr ⟨?_, ?_⟩ <;> rw [hrun]
    · intro _ _
      simp only [List.length_nil]
      omega
    · nofun
  · exact .inl ⟨c.unexpected expected, if_neg h⟩

/-- Where the token is missing the savings pay for the complaint; where it is there, it brings one
more. -/
theorem pays_expect {kind : TokenKind} (hkind : kind ≠ .endOfFile) (expected : Expectation) :
    Pays (k + 1) (expect kind expected) (fun _ => k + 2) c :=
  (begins_expect hkind expected).pays.weaken (Nat.le_refl _) fun _ => by omega

/-- A mark in front of a construct may be there or not. -/
theorem begins_accept_bind {kind : TokenKind} (hkind : kind ≠ .endOfFile)
    {f : Option Token → Parser β} {left : β → Nat} (hf : ∀ o next, Begins (f o) left next) :
    Begins (accept kind >>= f) left c := by
  by_cases h : c.kind = kind
  · have hread : Reads (accept kind) c (some c.current) c.advance := if_pos h
    have hpays : Pays 1 (f (some c.current)) left c.advance :=
      (hf _ _).pays.weaken (Nat.le_refl _) fun b => by omega
    exact .inr (.behind 1 hread (length_advance h hkind) hpays)
  · exact (hf none c).after (Reads.accept_none h)

/-- What is saved up behind an attempt, with one more for the report of an error. -/
def saved (left : α → Nat) (k : Nat) : Except Diagnostic α → Nat
  | .ok a => left a + k
  | .error _ => k + 1

/-- What is tried answers, or it is given up. The error that it was stopped by is still to be
reported, and is paid for already unless nothing was read. -/
theorem Begins.attempt_bind {p : Parser α} {f : Except Diagnostic α → Parser β} {left : α → Nat}
    {left' : β → Nat} (hp : Begins p left c)
    (ok : ∀ a next, Pays (left a + k) (f (.ok a)) left' next)
    (refused : ∀ d, p c = ⟨.error d, [], c⟩ → Pays k (f (.error d)) left' c)
    (error : ∀ d next, Pays (k + 1) (f (.error d)) left' next) :
    Pays k (attempt p >>= f) left' c := by
  obtain ⟨d, hd⟩ | ⟨hanswered, hstopped⟩ := hp
  · have hread : Reads (attempt p) c (.error d) c := reads_attempt_iff.mpr hd
    exact (refused d hd).after hread
  · have hattempt : Pays k (attempt p) (saved left k) c := by
      refine ⟨?_, nofun⟩
      rintro r ⟨⟩
      simp only [attempt]
      cases hr : (p c).outcome with
      | ok a =>
        have := hanswered a hr
        simp only [saved]
        omega
      | error d =>
        have := hstopped d hr
        simp only [saved]
        omega
    refine hattempt.bind fun r next => ?_
    cases r with
    | ok a => exact ok a next
    | error d => exact error d next

/-- A construct is given up, and some tokens with it. -/
theorem pays_giveUp (d : Diagnostic) (drop : List Token → List Token) {a : α} {left : α → Nat}
    (hdrop : (drop c.rest).length + left a + 1 ≤ k + c.rest.length) :
    Pays k (report d >>= fun _ => skip drop >>= fun _ => pure a) left c := by
  have hrun : (report d >>= fun _ => skip drop >>= fun _ => pure a) c =
      ⟨.ok a, [d], { c with rest := drop c.rest }⟩ := rfl
  refine ⟨?_, ?_⟩ <;> rw [hrun]
  · rintro _ ⟨⟩
    simp only [List.length_singleton]
    omega
  · nofun

/-! ## Names and types -/

/-- A segment takes two tokens, and is refused behind the `::` that pays for the refusal. -/
theorem pays_nextSegment (expected : Expectation) :
    Pays k (nextSegment expected) (fun o => o.elim k fun _ => k + 2) c := by
  refine (pays_accept (by decide)).bind fun o next => ?_
  cases o with
  | none => exact .pure (Nat.le_refl k)
  | some colons =>
    exact (pays_expect (by decide) expected).bind fun name _ => .pure (Nat.le_refl _)

/-- The `::` in front of a segment pays for the segment, should it be missing. -/
theorem pays_segments (expected : Expectation) :
    Pays k (collect (nextSegment expected)) (fun _ => k) c :=
  (pays_collect fun _ => pays_nextSegment expected).weaken (Nat.le_refl k) fun more => by omega

/-- A name is refused at its first token or takes it. -/
theorem begins_qualifiedName (expected : Expectation) :
    Begins (qualifiedName expected) (fun _ => 1) c := by
  refine (begins_expect (by decide) expected).bind fun first _ => ?_
  exact (pays_segments expected).bind fun more _ => .pure (Nat.le_refl 1)

theorem begins_typeHead : Begins typeHead (fun _ => 1) c := by
  refine (begins_qualifiedName .typeName).bind fun name next => .after .kind ?_
  split
  · exact .pure (Nat.le_refl _)
  · split
    · exact pays_refuse .plainType _
    · refine pays_next.bind fun opening _ => ?_
      refine (begins_qualifiedName .pointee).pays.bind fun inner _ => ?_
      exact (pays_expect (by decide) .pointeeEnd).bind fun close _ => .pure (by omega)

theorem pays_indirection : Pays k indirection (fun _ => k) c := by
  refine (pays_accept (by decide)).bind fun o next => ?_
  cases o with
  | some mark => exact .pure (Nat.le_succ k)
  | none =>
    refine (pays_accept (k := k) (by decide)).bind fun o next => ?_
    cases o with
    | some mark => exact .pure (Nat.le_succ k)
    | none => exact .pure (Nat.le_refl k)

/-- A type is refused where it starts, or leaves the income of one token behind. -/
theorem begins_typeExpr : Begins typeExpr (fun _ => 1) c := by
  refine .after .span (begins_accept_bind (by decide) fun const? _ => ?_)
  refine begins_typeHead.bind fun head _ => ?_
  refine pays_indirection.bind fun passing _ => ?_
  exact pays_freshId.bind fun id _ => .pure (Nat.le_refl _)

/-! ## Members -/

/-- A default value costs an error, which the token of the name pays for. -/
theorem begins_parameter (owner member : String) :
    Begins (parameter owner member) (fun _ => 1) c := by
  refine begins_typeExpr.bind fun type _ => ?_
  refine (pays_expect (by decide) .parameterName).bind fun name next => .after .kind ?_
  split
  · exact .after .span (pays_fail _ _)
  · exact pays_freshId.bind fun id _ => .pure (by omega)

/-- One turn of the loop over parameters: where a separator is missing, the parameter in front of it
pays for the complaint. -/
theorem pays_nextParameter (owner member : String) :
    Pays (k + 1) (nextParameter owner member)
      (fun o => o.elim (k + 1) fun _ => k + 1 + 0) c := by
  refine .after .kind ?_
  split
  · exact .pure (Nat.le_refl _)
  · refine (begins_parameter owner member).pays.bind fun param next => .after .kind ?_
    split
    · refine (pays_expect (by decide) .parameterSeparator).bind fun comma _ => .pure ?_
      simp only [Option.elim_some]
      omega
    · exact .pure (by simp)

theorem begins_parameters (owner member : String) :
    Begins (parameters owner member) (fun _ => 1) c := by
  refine (begins_expect (by decide) .parameterList).bind fun opening _ => ?_
  refine (pays_collect fun c => pays_nextParameter (k := 0) owner member).bind fun params _ => ?_
  exact pays_next.bind fun closing _ => .pure (by omega)

theorem pays_constructorDecl {owner : String} (start : Span)
    (h : c.atConstructor owner = true) : Pays 0 (constructorDecl owner start) (fun _ => 2) c := by
  have hadvance := (Cursor.ahead_of_atConstructor h).1.length
  refine .behind 1 (reads_next_iff.mpr ⟨rfl, rfl⟩) (by simpa [Nat.add_comm] using hadvance.ge) ?_
  refine (begins_parameters owner owner).pays.bind fun params _ => ?_
  refine (pays_expect (by decide) .constructorEnd).bind fun semi _ => ?_
  exact pays_freshId.bind fun id _ => .pure (by omega)

theorem pays_requireMethodName (owner : String) (isStatic : Bool) (name : Token) :
    Pays (k + 1) (requireMethodName owner isStatic name) (fun _ => k) c := by
  cases isStatic with
  | true => exact pays_require _ _
  | false => exact pays_require _ _

/-- The mark pays for itself where it must not stand. -/
theorem pays_constMark (owner : String) (isStatic : Bool) (name : String) :
    Pays k (constMark owner isStatic name) (fun _ => k) c := by
  refine (pays_accept (by decide)).bind fun o next => ?_
  cases o with
  | none => exact .pure (Nat.le_refl k)
  | some mark => exact (pays_require _ _).bind fun _ _ => .pure (Nat.le_refl k)

/-- A method may be complained about for its name and for a mark of constness without being given
up. Its tokens pay for that and leave two. -/
theorem begins_methodDecl (owner : String) (start : Span) (isStatic : Bool) :
    Begins (methodDecl owner start isStatic) (fun _ => 2) c := by
  refine begins_typeExpr.bind fun returns _ => ?_
  refine (pays_expect (by decide) .methodName).bind fun name _ => ?_
  refine (pays_requireMethodName owner isStatic name).bind fun _ _ => ?_
  refine (begins_parameters owner name.text).pays.bind fun params _ => ?_
  refine (pays_constMark owner isStatic name.text).bind fun isConst _ => ?_
  refine (pays_expect (by decide) .methodEnd).bind fun semi _ => ?_
  exact pays_freshId.bind fun id _ => .pure (by omega)

/-- A member that is read leaves enough for a report that it is on the line of another. -/
theorem begins_member (owner : String) : Begins (member owner) (fun _ => 2) c := by
  refine .after .span (begins_accept_bind (by decide) fun o next => ?_)
  cases o with
  | some mark => exact begins_methodDecl owner _ true
  | none =>
    refine .after .cursor ?_
    split
    · exact .inr (pays_constructorDecl _ ‹_›)
    · exact begins_methodDecl owner _ false

/-! ## Classes -/

/-- A member that is given up costs one error, and is never given up for free. -/
theorem pays_nextMember (owner : String) :
    Pays 1 (nextMember owner) (fun o => o.elim 1 fun read => 1 + read.toList.length) c := by
  refine .after .kind ?_
  split
  · exact .pure (Nat.le_refl _)
  · exact pays_refuse _ _
  · exact pays_refuse _ _
  · rename_i hbrace heof hend
    refine (begins_member owner).attempt_bind (fun _ _ => .pure ?_) (fun d _ => ?_)
      fun d next => ?_
    · simp
    · obtain ⟨rest, stop, n⟩ := c
      obtain ⟨t, ts, rfl⟩ := List.exists_cons_of_ne_nil (Cursor.rest_ne_nil_of_kind rfl heof)
      have hdrop : (skipMember (t :: ts)).length ≤ ts.length :=
        length_skipMember heof hend hbrace
      refine pays_giveUp d skipMember ?_
      simp only [Option.elim_some, Option.toList_none, List.length_nil, List.length_cons]
      omega
    · have := (skipMember_suffix next.rest).length_le
      refine pays_giveUp d skipMember ?_
      simp only [Option.elim_some, Option.toList_none, List.length_nil]
      omega

/-- No more members are crowded than were read. -/
theorem length_crowded_le (reads : List ReadMember) : (crowded reads).length ≤ reads.length := by
  fun_induction crowded reads with
  | case1 first second rest hline ih => simpa using ih
  | case2 first second rest hline ih => exact ih.trans (Nat.le_succ _)
  | case3 reads hfew => exact Nat.zero_le _

/-- Each member that was read can pay for itself, should it be crowded. -/
theorem pays_members (owner : String) :
    Pays 2 (collect (nextMember owner)) (fun read => (read.filterMap id).length + 2) c := by
  refine (pays_collect fun _ => pays_nextMember owner).weaken (Nat.le_succ 1) fun read => ?_
  have hlength : (read.filterMap id).length = total (fun o => o.toList.length) read := by
    induction read with
    | nil => rfl
    | cons o read ih =>
      rw [total, ← ih]
      cases o with
      | none => exact (Nat.zero_add _).symm
      | some member => exact Nat.add_comm _ 1
  omega

theorem pays_reportAll_when {n : Nat} {crowding : Bool} {ds : List Diagnostic} {p : Parser α}
    {left : α → Nat} (hds : ds.length ≤ n) (hp : ∀ c, Pays k p left c) :
    Pays (n + k) (if crowding then reportAll ds >>= fun _ => p else p) left c := by
  split
  · have hreports : Pays (n + k) (reportAll ds) (fun _ => k) c :=
      (pays_reportAll (k := k) ds).weaken (by omega) fun _ => by omega
    exact hreports.bind fun _ next => hp next
  · exact (hp c).weaken (Nat.le_add_left _ _) fun a => by omega

/-- A class without its closing brace costs an error at a token that is not its own, so one has to
be saved up. -/
theorem pays_classBody (settings : GrammarSettings) (start : Span) (name : String)
    (override : Option IncludeOverride) :
    Pays 1 (classBody settings start name override) (fun _ => 0) c := by
  refine (pays_expect (by decide) .classBody).bind fun opening _ => ?_
  refine (pays_members name).bind fun read _ => pays_next.bind fun closing _ => ?_
  have hcrowded : ((crowded (read.filterMap id)).map fun decl =>
      Diagnostic.about decl.span (.crowdedLine name)).length ≤ (read.filterMap id).length := by
    rw [List.length_map]
    exact length_crowded_le _
  have hend {k : Nat} (c : Cursor) : Pays k (freshId >>= fun n => pure
      (ClassDecl.mk n name override ((read.filterMap id).map (·.decl))
        (start.cover closing.span))) (fun _ => 0) c :=
    pays_freshId.bind fun n _ => .pure (Nat.zero_le _)
  refine (pays_accept (by decide)).bind fun semi mid => ?_
  cases semi with
  | some semi => exact pays_reportAll_when (k := 3) hcrowded hend
  | none =>
    refine .after .cursor ((pays_report _).bind fun _ next => ?_)
    exact pays_reportAll_when (k := 1) hcrowded hend

theorem pays_reportDangling (override : IncludeOverride) :
    Pays (k + 1) (reportDangling override) (fun _ => k) c :=
  pays_report _

theorem pays_qualifiedForward (start : Span) (first : Token) :
    Pays (k + 1) (qualifiedForward start first) (fun _ => k + 1) c := by
  refine (pays_segments .className).bind fun more _ => .after .span ?_
  exact (pays_expect (by decide) .forwardEnd).bind fun semi _ => pays_report _

/-- The keyword of a class pays for what is wrong with its name, and its name for its body. -/
theorem pays_classItem (settings : GrammarSettings) (override : Option IncludeOverride)
    (h : c.kind = .classKeyword) :
    Pays 0 (classItem settings override) (fun _ => 0) c := by
  refine (pays_next_of_kind h (by decide)).bind fun keyword _ => ?_
  refine (pays_expect (by decide) .className).bind fun name next => .after .kind ?_
  split
  · exact (pays_qualifiedForward _ name).bind fun _ _ => .pure (Nat.zero_le _)
  · refine (pays_require _ _).bind fun _ _ => (pays_accept (by decide)).bind fun semi next => ?_
    cases semi with
    | none =>
      exact (pays_classBody settings _ name.text override).bind fun _ _ => .pure (Nat.le_refl 0)
    | some semi =>
      have hdangling (c : Cursor) : Pays 2 (override.forM reportDangling) (fun _ => 1) c := by
        cases override with
        | none => exact .pure (by omega)
        | some o => exact pays_reportDangling o
      exact (hdangling _).bind fun _ _ => pays_freshId.bind fun id _ => .pure (Nat.zero_le _)

/-! ## Namespaces -/

theorem pays_closingName (marker : Token) : Pays k (closingName marker) (fun _ => k) c := by
  refine .after .span ?_
  split
  · refine (pays_accept (by decide)).bind fun o next => .pure ?_
    cases o with
    | some name => exact Nat.le_succ k
    | none => exact Nat.le_refl k
  · exact .pure (Nat.le_refl k)

/-- A namespace pays for its own errors, if what is inside does for its own. -/
theorem pays_namespaceItem {body : Parser (List Item)}
    (hbody : ∀ c, Pays 0 body (fun _ => 0) c) (override : Option IncludeOverride)
    (h : c.kind = .namespaceKeyword) : Pays 0 (namespaceItem body override) (fun _ => 0) c := by
  refine (pays_next_of_kind h (by decide)).bind fun keyword _ => ?_
  refine (pays_accept (by decide)).bind fun name next => ?_
  have hrequire : Pays (name.elim 1 fun _ => 2)
      (name.forM fun t => require (startsLower t.text) (.about t.span (.namespaceName t.text)))
      (fun _ => 1) next := by
    cases name with
    | none => exact .pure (Nat.le_refl 1)
    | some t => exact pays_require _ _
  refine hrequire.bind fun _ _ => (pays_expect (by decide) .namespaceBody).bind fun opening _ => ?_
  have hbehind (c : Cursor) : Pays 2 body (fun _ => 2) c :=
    (hbody c).weaken (Nat.zero_le 2) fun _ => Nat.le_refl 2
  refine (hbehind _).bind fun items next => .after .cursor ?_
  split
  · exact pays_fail _ _
  · refine pays_next.bind fun closing _ => (pays_closingName closing).bind fun closeName _ => ?_
    exact pays_freshId.bind fun id _ => .pure (by omega)

/-! ## Items -/

/-- An include line pays for the report that nothing follows it. -/
theorem begins_item (settings : GrammarSettings) {body : Parser (List Item)}
    (hbody : ∀ c, Pays 0 body (fun _ => 0) c) :
    Begins (item settings body) (fun _ => 0) c := by
  have hnamespace {c : Cursor} (override : Option IncludeOverride)
      (hkind : c.kind = .namespaceKeyword) :
      Pays 0 (namespaceItem body override >>= fun read => pure (some read)) (fun _ => 0) c :=
    (pays_namespaceItem hbody override hkind).bind fun _ _ => .pure (Nat.le_refl 0)
  by_cases hinclude : c.kind = .includeLine
  · have hread : Reads includeOverride c (some _) c.advance :=
      Reads.bind (reads_accept_iff.mpr (.inl ⟨hinclude, rfl, rfl⟩)) .pure
    refine .inr (.behind 1 hread (length_advance hinclude (by decide)) (.after .kind ?_))
    split
    · exact (hnamespace _ ‹_›).weaken (Nat.zero_le 1) fun _ => Nat.zero_le _
    · exact (pays_classItem settings _ ‹_›).weaken (Nat.zero_le 1) fun _ => Nat.zero_le _
    · exact (pays_reportDangling _).bind fun _ _ => .pure (Nat.le_refl 0)
  · have hread : Reads includeOverride c none c := (Reads.accept_none hinclude).bind .pure
    refine .after hread (.after .kind ?_)
    split
    · exact .inr (hnamespace none ‹_›)
    · exact .inr (pays_classItem settings none ‹_›)
    · exact .inl ⟨_, rfl⟩

/-- A token that closes a namespace. -/
def closingKinds : List TokenKind := [.namespaceEnd, .closeBrace]

/-- Outside of namespaces a closing token stops the reading, and nothing is taken that could pay
for it. -/
theorem refuses_nextItem (settings : GrammarSettings) (body : Parser (List Item))
    (h : c.kind ∈ closingKinds) : Refuses (nextItem settings false body) c := by
  refine .after .kind ?_
  have hclosing : Refuses (span >>= fun s => fail (.about s .unmatchedNamespaceEnd) :
      Parser (Option (Option Item))) c := .after .span ⟨_, rfl⟩
  split
  · rename_i hkind
    simp [hkind, closingKinds] at h
  · exact hclosing
  · exact hclosing
  · simp_all [closingKinds]

/-- One turn of the loop. An unmatched closing is the one case without an income, so it is left out
here. -/
theorem pays_nextItem (settings : GrammarSettings) {nested : Bool} {body : Parser (List Item)}
    (hbody : ∀ c, Pays 0 body (fun _ => 0) c) (hshrinks : Shrinks body)
    (hclosing : nested = true ∨ c.kind ∉ closingKinds) :
    Pays 0 (nextItem settings nested body) (fun _ => 0) c := by
  have hend (h : c.kind ∈ closingKinds) : Pays 0 (if nested then pure none
      else span >>= fun s => fail (.about s .unmatchedNamespaceEnd) :
        Parser (Option (Option Item))) (fun _ => 0) c := by
    rw [if_pos (hclosing.resolve_right (not_not_intro h))]
    exact .pure (Nat.le_refl 0)
  refine .after .kind ?_
  split
  · exact .pure (Nat.le_refl 0)
  · exact hend (by simp [closingKinds, *])
  · exact hend (by simp [closingKinds, *])
  · rename_i heof hend hbrace
    have hne := Cursor.rest_ne_nil_of_kind (c := c) rfl heof
    refine (begins_item settings hbody).attempt_bind (fun _ _ => .pure (Nat.zero_le _))
      (fun d hd => .after .cursor ?_) fun d next => .after .cursor ?_
    · -- where something starts an item takes a token, so here nothing does
      have hstart : c.kind ∉ startKinds := by
        intro hstart
        have htakes := takes_item settings hshrinks hstart
        rw [Takes, hd] at htakes
        exact Nat.lt_irrefl _ htakes
      -- recovery drops the token that the item was refused at, and that one pays
      have hmore : ¬c.atEnd = true := fun hatEnd => heof (of_decide_eq_true hatEnd)
      rw [if_neg hmore]
      obtain ⟨rest, stop, n⟩ := c
      obtain ⟨t, ts, rfl⟩ := List.exists_cons_of_ne_nil hne
      have hdrop : (skipItem 0 (t :: ts)).length ≤ ts.length :=
        length_skipItem hstart heof hend hbrace
      refine pays_giveUp d (skipItem 0) ?_
      simp only [List.length_cons]
      omega
    · split
      · exact pays_fail _ _
      · have := (skipItem_suffix 0 next.rest).length_le
        exact pays_giveUp d (skipItem 0) (by omega)

/-- The items of a namespace, however deep they are nested. -/
theorem pays_itemsWithin (settings : GrammarSettings) (ahead : List Token) :
    Pays 0 (itemsWithin settings true ahead) (fun _ => 0) c := by
  induction ahead generalizing c with
  | nil => exact .pure (Nat.le_refl 0)
  | cons t ahead ih =>
    have hstep (c : Cursor) : Pays 0 (nextItem settings true (itemsWithin settings true ahead))
        (fun o => o.elim 0 fun _ => 0 + 0) c :=
      (pays_nextItem settings (fun _ => ih) (shrinks_itemsWithin settings true ahead)
        (.inl rfl)).weaken (Nat.le_refl 0) fun o => by cases o <;> simp
    exact (pays_collect hstep).bind fun read _ => .pure (Nat.zero_le _)

/-! ## Files -/

/-- All errors of a parser that was paid for. -/
theorem Pays.length_errors_le {p : Parser α} {left : α → Nat} (h : Pays k p left c) :
    (p c).errors.length + (p c).next.rest.length ≤ k + c.rest.length := by
  rw [Parsed.errors, List.length_append]
  cases hp : (p c).outcome with
  | ok a =>
    have := h.answered a hp
    simp only [List.length_nil]
    omega
  | error d =>
    have := h.stopped d hp
    simp only [List.length_singleton]
    omega

/-- A loop has at most as many errors as tokens, also where it is stopped at a token that is not
taken. -/
theorem Repeats.length_errors_le {step : Parser (Option α)} {p : Parsed (List α)}
    (h : Repeats step c p)
    (hstep : ∀ c, Pays 0 step (fun _ => 0) c ∨ Refuses step c ∧ c.rest ≠ []) :
    p.errors.length ≤ c.rest.length := by
  induction h with
  | @stopped c next d reported last =>
    obtain hpays | ⟨⟨d', hd'⟩, hne⟩ := hstep c
    · -- the last step is paid for by the tokens that it took
      have := hpays.length_errors_le
      simp only [last, Parsed.errors, List.length_append, List.length_singleton] at *
      omega
    · rw [hd'] at last
      cases last
      exact List.length_pos_iff.mpr hne
  | @finished c next reported last =>
    obtain hpays | ⟨⟨d', hd'⟩, hne⟩ := hstep c
    · have := hpays.length_errors_le
      simp only [last, Parsed.errors, List.append_nil] at *
      omega
    · rw [hd'] at last
      cases last
  | @more c mid a reported p first others ih =>
    obtain hpays | ⟨⟨d', hd'⟩, hne⟩ := hstep c
    · have := hpays.length_errors_le
      rw [Parsed.errors_following]
      simp only [first, Parsed.errors, List.append_nil, List.length_append] at *
      omega
    · rw [hd'] at first
      cases first

/-- A reading of items has at most as many errors as there are tokens ahead. -/
theorem length_errors_items_le (settings : GrammarSettings) (c : Cursor) :
    (readItems settings false c).errors.length ≤ c.rest.length := by
  have hstep (c : Cursor) :
      Pays 0 (nextItem settings false (readItems settings true)) (fun _ => 0) c ∨
        Refuses (nextItem settings false (readItems settings true)) c ∧ c.rest ≠ [] := by
    by_cases h : c.kind ∈ closingKinds
    · refine .inr ⟨refuses_nextItem settings _ h, Cursor.rest_ne_nil_of_kind rfl ?_⟩
      intro heof
      simp [heof, closingKinds] at h
    · have hbody (c : Cursor) : Pays 0 (readItems settings true) (fun _ => 0) c := by
        obtain ⟨hanswered, hstopped⟩ := pays_itemsWithin (c := c) settings c.rest
        exact ⟨hanswered, hstopped⟩
      exact .inl (pays_nextItem settings hbody (shrinks_readItems true) (.inr h))
  rw [readItems_eq_collect, Parsed.errors_somes]
  exact (repeats_collect (progresses_readItems false) c).length_errors_le hstep

end Parser

end BindingIdl

open BindingIdl.Parser

namespace BindingIdl.InterfaceFile

/-- A file is read to its end, whatever its tokens are: the reader that knows no bounds comes to
what `reading` is. And it has at most as many errors as tokens in front of that end. -/
theorem ends_within_tokens (settings : GrammarSettings) (size : Nat) (tokens : List Token) :
    Terminates settings ∧
      (∃ items, ReadsItems settings items ∧
        items false (beginning size tokens) = reading settings size tokens) ∧
      (errors settings size tokens).length ≤
        (tokens.takeWhile (·.kind ≠ .endOfFile)).length := by
  refine ⟨terminates settings, ⟨_, readsItems_readItems settings, rfl⟩, ?_⟩
  rw [errors_eq, ← Parsed.errors_upToEnd, ← reading_upToEnd]
  exact length_errors_items_le settings (beginning size tokens).upToEnd

end BindingIdl.InterfaceFile
