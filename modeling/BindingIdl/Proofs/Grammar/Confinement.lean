import BindingIdl.Proofs.Grammar.Progress

/-!
# Members stay in front of their `;`

Whatever stands in front of a `;`, no part of a member reads past that token unless it is what ends
the member. `Parser.Confined semi p us n Q` says so of one parser: started before the tokens `us`
and the `;` behind them, it does the same thing whatever comes after the `;`, and leaves the `;`
where it is. A member as a whole (`Parser.Closes`) either is stopped in the same way, or takes the
`;` as its last token.

There is one rule for each primitive and each way to put parsers together, then one lemma for each
parser of the grammar. A repetition is confined when its step is, by induction on `us`; this is
where `Progresses` is needed, since what bounds a repetition is everything ahead.
-/

namespace BindingIdl

namespace Parser

variable {α β : Type} {semi : Token} {us : List Token} {n : NodeId}

/-- In front of the token `semi` the parser does the same whatever comes behind `semi`, and it
comes to a cursor in front of that token; and `Q` holds of its answer and of what is left of
`us`. -/
def Confined (semi : Token) (p : Parser α) (us : List Token) (n : NodeId)
    (Q : α → List Token → Prop) : Prop :=
  ∃ outcome reported vs n', vs <:+ us ∧ (∀ a, outcome = .ok a → Q a vs) ∧
    ∀ rest stop, p ⟨us ++ semi :: rest, stop, n⟩ =
      ⟨outcome, reported, ⟨vs ++ semi :: rest, stop, n'⟩⟩

/-- Nothing to say about the answer. -/
def Anything {α : Type} (_ : α) (_ : List Token) : Prop := True

/-- The kind of the token ahead. -/
def headKind (semi : Token) (us : List Token) : TokenKind := (us.headD semi).kind

variable {Q : α → List Token → Prop} {R : β → List Token → Prop}

/-! ## Rules -/

theorem Confined.imp {p : Parser α} {Q' : α → List Token → Prop} (h : Confined semi p us n Q)
    (hQ : ∀ a vs, Q a vs → Q' a vs) : Confined semi p us n Q' := by
  obtain ⟨outcome, reported, vs, n', hvs, hanswer, hrun⟩ := h
  exact ⟨outcome, reported, vs, n', hvs, fun a ha => hQ a vs (hanswer a ha), hrun⟩

/-- An answer without a step leaves all of `us`. -/
theorem Confined.pure {a : α} (h : Q a us) : Confined semi (pure a) us n Q := by
  refine ⟨.ok a, [], us, n, List.suffix_refl us, ?_, fun _ _ => rfl⟩
  rintro _ ⟨⟩
  exact h

/-- What is left by the first parser is where the second starts. -/
theorem Confined.bind {p : Parser α} {f : α → Parser β} (hp : Confined semi p us n Q)
    (hf : ∀ a vs m, vs <:+ us → Q a vs → Confined semi (f a) vs m R) :
    Confined semi (p >>= f) us n R := by
  obtain ⟨outcome, reported, vs, m, hvs, hanswer, hrun⟩ := hp
  cases outcome with
  | error d =>
    exact ⟨.error d, reported, vs, m, hvs, nofun, fun rest stop => bind_of_error f (hrun rest stop)⟩
  | ok a =>
    obtain ⟨outcome', reported', ws, m', hws, hanswer', hrun'⟩ := hf a vs m hvs (hanswer a rfl)
    refine ⟨outcome', reported ++ reported', ws, m', hws.trans hvs, hanswer', fun rest stop => ?_⟩
    rw [bind_of_ok f (hrun rest stop), hrun']

/-- Behind a look at the tokens up to `semi`. -/
theorem Confined.after {p : Parser α} {f : α → Parser β} {a : α}
    (hp : ∀ rest stop, Reads p ⟨us ++ semi :: rest, stop, n⟩ a ⟨us ++ semi :: rest, stop, n⟩)
    (hf : Confined semi (f a) us n R) : Confined semi (p >>= f) us n R := by
  obtain ⟨outcome, reported, vs, m, hvs, hanswer, hrun⟩ := hf
  refine ⟨outcome, reported, vs, m, hvs, hanswer, fun rest stop => ?_⟩
  rw [bind_of_ok f (hp rest stop), hrun]
  rfl

/-- A look at the kind sees `semi` at the latest, and nothing behind it. -/
theorem Confined.kind {f : TokenKind → Parser β}
    (hf : Confined semi (f (headKind semi us)) us n R) :
    Confined semi (Parser.kind >>= f) us n R := by
  refine .after (fun rest stop => ?_) hf
  cases us <;> rfl

theorem confined_span : Confined semi span us n Anything := by
  refine ⟨.ok (us.headD semi).span, [], us, n, List.suffix_refl us, fun _ _ => trivial,
    fun rest stop => ?_⟩
  cases us <;> rfl

theorem confined_fail (d : Diagnostic) : Confined semi (fail d) us n Q :=
  ⟨.error d, [], us, n, List.suffix_refl us, nofun, fun _ _ => rfl⟩

/-- Also a complaint about the token ahead does not depend on what is behind `semi`. -/
theorem confined_refuse (expected : Expectation) : Confined semi (refuse expected) us n Q := by
  refine ⟨.error ((⟨us.headD semi :: us.tail, semi, n⟩ : Cursor).unexpected expected), [], us, n,
    List.suffix_refl us, nofun, fun rest stop => ?_⟩
  cases us <;> rfl

theorem confined_report (d : Diagnostic) : Confined semi (report d) us n Anything :=
  ⟨.ok (), [d], us, n, List.suffix_refl us, fun _ _ => trivial, fun _ _ => rfl⟩

theorem confined_require (holds : Bool) (d : Diagnostic) :
    Confined semi (require holds d) us n Anything := by
  cases holds with
  | true => exact .pure trivial
  | false => exact confined_report d

theorem confined_freshId : Confined semi freshId us n Anything :=
  ⟨.ok n, [], us, n + 1, List.suffix_refl us, fun _ _ => trivial, fun _ _ => rfl⟩

/-- A token in front of `semi` may be taken. -/
theorem confined_next {t : Token} : Confined semi next (t :: us) n Anything :=
  ⟨.ok t, [], us, n, List.suffix_cons t us, fun _ _ => trivial, fun _ _ => rfl⟩

/-- Another kind than that of `semi` is asked for, so `semi` is not taken. -/
theorem confined_accept {k : TokenKind} (hsemi : semi.kind = .semicolon) (hk : k ≠ .semicolon) :
    Confined semi (accept k) us n Anything := by
  have hk : semi.kind ≠ k := fun h => hk (h.symm.trans hsemi)
  cases us with
  | nil =>
    exact ⟨.ok none, [], [], n, List.suffix_refl _, fun _ _ => trivial, fun _ _ => if_neg hk⟩
  | cons t us =>
    by_cases ht : t.kind = k
    · exact ⟨.ok (some t), [], us, n, List.suffix_cons t us, fun _ _ => trivial,
        fun _ _ => if_pos ht⟩
    · exact ⟨.ok none, [], t :: us, n, List.suffix_refl _, fun _ _ => trivial,
        fun _ _ => if_neg ht⟩

/-- Where `semi` is met instead of the kind asked for, the parser stops in front of it. -/
theorem confined_expect {k : TokenKind} (hsemi : semi.kind = .semicolon) (hk : k ≠ .semicolon)
    (expected : Expectation) : Confined semi (expect k expected) us n Anything := by
  have hk : semi.kind ≠ k := fun h => hk (h.symm.trans hsemi)
  cases us with
  | nil =>
    exact ⟨.error ((⟨[semi], semi, n⟩ : Cursor).unexpected expected), [], [], n,
      List.suffix_refl _, nofun, fun _ _ => if_neg hk⟩
  | cons t us =>
    by_cases ht : t.kind = k
    · exact ⟨.ok t, [], us, n, List.suffix_cons t us, fun _ _ => trivial, fun _ _ => if_pos ht⟩
    · exact ⟨.error ((⟨[t], semi, n⟩ : Cursor).unexpected expected), [], t :: us, n,
        List.suffix_refl _, nofun, fun _ _ => if_neg ht⟩

/-- A repetition is confined when its step is. Behind its answer stands what the step said
last. -/
theorem confined_collect {step : Parser (Option α)} {S : List Token → Prop}
    (hprogress : Progresses step)
    (hstep : ∀ us n, Confined semi step us n fun o vs => o = none → S vs) :
    Confined semi (collect step) us n fun _ vs => S vs := by
  induction hl : us.length using Nat.strong_induction_on generalizing us n with
  | _ l ih =>
    obtain ⟨outcome, reported, vs, m, hvs, hanswer, hrun⟩ := hstep us n
    rcases outcome with d | _ | a
    · exact ⟨.error d, reported, vs, m, hvs, nofun, fun rest stop =>
        collect_of_error hprogress (hrun rest stop)⟩
    · exact ⟨.ok [], reported, vs, m, hvs, fun _ _ => hanswer none rfl rfl, fun rest stop =>
        collect_of_none hprogress (hrun rest stop)⟩
    · have hshorter : vs.length < us.length := by
        have := hprogress ⟨us ++ [semi], semi, n⟩ a (by rw [hrun])
        rw [hrun] at this
        simpa using this
      obtain ⟨outcome', reported', ws, m', hws, hanswer', hrun'⟩ :=
        @ih vs.length (by omega) vs m rfl
      refine ⟨outcome'.map ([a] ++ ·), reported ++ reported', ws, m', hws.trans hvs, ?_, ?_⟩
      · intro as has
        cases outcome' with
        | error d => cases has
        | ok as' => exact hanswer' as' rfl
      · intro rest stop
        rw [collect_of_some hprogress (hrun rest stop), hrun']
        rfl

/-! ## Names and types -/

section

variable (hsemi : semi.kind = .semicolon)
include hsemi

/-- What is ahead and is not a `;` is one of the tokens in front of it. -/
theorem exists_cons_of_headKind {k : TokenKind} (h : headKind semi us = k)
    (hk : k ≠ .semicolon) : ∃ t ts, us = t :: ts := by
  cases us with
  | nil => exact absurd (h.symm.trans hsemi) hk
  | cons t ts => exact ⟨t, ts, rfl⟩

theorem confined_nextSegment (expected : Expectation) :
    Confined semi (nextSegment expected) us n Anything := by
  refine (confined_accept hsemi (by decide)).bind fun o vs m _ _ => ?_
  cases o with
  | none => exact .pure trivial
  | some colons =>
    exact (confined_expect hsemi (by decide) expected).bind fun _ _ _ _ _ => .pure trivial

theorem confined_qualifiedName (expected : Expectation) :
    Confined semi (qualifiedName expected) us n Anything := by
  have hsegments (us : List Token) (n : NodeId) :
      Confined semi (collect (nextSegment expected)) us n fun _ _ => True :=
    confined_collect (progresses_nextSegment expected) fun us n =>
      (confined_nextSegment hsemi expected).imp fun _ _ _ _ => trivial
  refine (confined_expect hsemi (by decide) expected).bind fun first vs m _ _ => ?_
  exact (hsegments vs m).bind fun _ _ _ _ _ => .pure trivial

theorem confined_typeHead : Confined semi typeHead us n Anything := by
  refine (confined_qualifiedName hsemi .typeName).bind fun name vs m _ _ => .kind ?_
  split
  · exact .pure trivial
  · rename_i hless
    split
    · exact confined_refuse .plainType
    · obtain ⟨t, ts, rfl⟩ := exists_cons_of_headKind hsemi (not_not.mp hless) (by decide)
      refine confined_next.bind fun opening vs m _ _ => ?_
      refine (confined_qualifiedName hsemi .pointee).bind fun inner vs m _ _ => ?_
      exact (confined_expect hsemi (by decide) .pointeeEnd).bind fun _ _ _ _ _ => .pure trivial

theorem confined_indirection : Confined semi indirection us n Anything := by
  refine (confined_accept hsemi (by decide)).bind fun o vs m _ _ => ?_
  cases o with
  | some mark => exact .pure trivial
  | none =>
    refine (confined_accept hsemi (by decide)).bind fun o vs m _ _ => ?_
    cases o with
    | some mark => exact .pure trivial
    | none => exact .pure trivial

theorem confined_typeExpr : Confined semi typeExpr us n Anything := by
  refine confined_span.bind fun start vs m _ _ => ?_
  refine (confined_accept hsemi (by decide)).bind fun const? vs m _ _ => ?_
  refine (confined_typeHead hsemi).bind fun head vs m _ _ => ?_
  refine (confined_indirection hsemi).bind fun passing vs m _ _ => ?_
  exact confined_freshId.bind fun id vs m _ _ => .pure trivial

/-! ## Parameters -/

theorem confined_parameter (owner member : String) :
    Confined semi (parameter owner member) us n Anything := by
  refine (confined_typeExpr hsemi).bind fun type vs m _ _ => ?_
  refine (confined_expect hsemi (by decide) .parameterName).bind fun name vs m _ _ => .kind ?_
  split
  · exact confined_span.bind fun _ _ _ _ _ => confined_fail _
  · exact confined_freshId.bind fun id vs m _ _ => .pure trivial

/-- The list of parameters is over at a closing parenthesis, and nowhere else. -/
theorem confined_nextParameter (owner member : String) :
    Confined semi (nextParameter owner member) us n fun o vs =>
      o = none → headKind semi vs = .closeParen := by
  refine .kind ?_
  split
  · exact .pure fun _ => ‹_›
  · refine (confined_parameter hsemi owner member).bind fun param vs m _ _ => .kind ?_
    split
    · exact (confined_expect hsemi (by decide) _).bind fun comma vs m _ _ => .pure nofun
    · exact .pure nofun

/-- A list whose parenthesis is missing stops at the `;` too. -/
theorem confined_parameters (owner member : String) :
    Confined semi (parameters owner member) us n Anything := by
  refine (confined_expect hsemi (by decide) .parameterList).bind fun opening vs m _ _ => ?_
  refine (confined_collect (progresses_nextParameter owner member) fun us n =>
    confined_nextParameter hsemi owner member).bind fun params vs m _ hclose => ?_
  obtain ⟨t, ts, rfl⟩ := exists_cons_of_headKind hsemi hclose (by decide)
  exact confined_next.bind fun closing vs m _ _ => .pure trivial

theorem confined_constMark (owner : String) (isStatic : Bool) (name : String) :
    Confined semi (constMark owner isStatic name) us n Anything := by
  refine (confined_accept hsemi (by decide)).bind fun o vs m _ _ => ?_
  cases o with
  | none => exact .pure trivial
  | some mark => exact (confined_require _ _).bind fun _ _ _ _ _ => .pure trivial

end

/-! ## Members -/

theorem confined_requireMethodName (owner : String) (isStatic : Bool) (name : Token) :
    Confined semi (requireMethodName owner isStatic name) us n Anything := by
  cases isStatic with
  | true => exact confined_require _ _
  | false => exact confined_require _ _

/-- In front of the token `semi` the parser does the same whatever comes behind `semi`. Where it
answers it has taken `semi` as its last token, and where it is stopped it has not taken it. -/
def Closes (semi : Token) (p : Parser α) (us : List Token) (n : NodeId) : Prop :=
  (∃ a reported n', ∀ rest stop, p ⟨us ++ semi :: rest, stop, n⟩ =
      ⟨.ok a, reported, ⟨rest, stop, n'⟩⟩) ∨
    ∃ d reported vs n', vs <:+ us ∧ ∀ rest stop, p ⟨us ++ semi :: rest, stop, n⟩ =
      ⟨.error d, reported, ⟨vs ++ semi :: rest, stop, n'⟩⟩

/-- A member may begin with parts that stay in front of its `;`, as long as the rest closes it. -/
theorem Confined.bind_closes {p : Parser α} {f : α → Parser β} (hp : Confined semi p us n Q)
    (hf : ∀ a vs m, vs <:+ us → Q a vs → Closes semi (f a) vs m) :
    Closes semi (p >>= f) us n := by
  obtain ⟨outcome, reported, vs, m, hvs, hanswer, hrun⟩ := hp
  cases outcome with
  | error d =>
    exact .inr ⟨d, reported, vs, m, hvs, fun rest stop => bind_of_error f (hrun rest stop)⟩
  | ok a =>
    obtain ⟨b, reported', m', hrun'⟩ | ⟨d, reported', ws, m', hws, hrun'⟩ :=
      hf a vs m hvs (hanswer a rfl)
    · refine .inl ⟨b, reported ++ reported', m', fun rest stop => ?_⟩
      rw [bind_of_ok f (hrun rest stop), hrun']
    · refine .inr ⟨d, reported ++ reported', ws, m', hws.trans hvs, fun rest stop => ?_⟩
      rw [bind_of_ok f (hrun rest stop), hrun']

/-- Only the first `;` ends a member. -/
theorem closes_end (hsemi : semi.kind = .semicolon) (hus : ∀ t ∈ us, t.kind ≠ .semicolon)
    (expected : Expectation) (make : Token → NodeId → α) :
    Closes semi (expect .semicolon expected >>= fun t => freshId >>= fun id => pure (make t id))
      us n := by
  cases us with
  | nil =>
    refine .inl ⟨make semi n, [], n + 1, fun rest stop => ?_⟩
    exact (Reads.expect hsemi).bind (Reads.freshId.bind .pure)
  | cons t us =>
    refine .inr ⟨(⟨[t], semi, n⟩ : Cursor).unexpected expected, [], t :: us, n,
      List.suffix_refl _, fun rest stop => ?_⟩
    exact bind_of_error _ (if_neg (hus t List.mem_cons_self))

theorem Closes.congr {p q : Parser α} (h : Closes semi q us n)
    (hsame : ∀ rest stop, p ⟨us ++ semi :: rest, stop, n⟩ = q ⟨us ++ semi :: rest, stop, n⟩) :
    Closes semi p us n := by
  simpa only [Closes, hsame] using h

/-- A constructor takes its `;`, or is stopped in front of it. -/
theorem closes_constructorDecl {t : Token} (hsemi : semi.kind = .semicolon)
    (hus : ∀ u ∈ t :: us, u.kind ≠ .semicolon) (owner : String) (start : Span) :
    Closes semi (constructorDecl owner start) (t :: us) n := by
  refine confined_next.bind_closes fun name us₁ _ h₁ _ => ?_
  refine (confined_parameters hsemi owner owner).bind_closes fun params us₂ _ h₂ _ => ?_
  have h := h₂.trans h₁
  exact closes_end hsemi (fun u hu => hus u (h.subset hu)) .constructorEnd _

theorem closes_methodDecl (hsemi : semi.kind = .semicolon) (hus : ∀ u ∈ us, u.kind ≠ .semicolon)
    (owner : String) (start : Span) (isStatic : Bool) :
    Closes semi (methodDecl owner start isStatic) us n := by
  refine (confined_typeExpr hsemi).bind_closes fun returns us₁ _ h₁ _ => ?_
  refine (confined_expect hsemi (by decide) .methodName).bind_closes fun name us₂ _ h₂ _ => ?_
  refine (confined_requireMethodName owner isStatic name).bind_closes fun _ us₃ _ h₃ _ => ?_
  refine (confined_parameters hsemi owner name.text).bind_closes fun params us₄ _ h₄ _ => ?_
  refine (confined_constMark hsemi owner isStatic name.text).bind_closes
    fun isConst us₅ _ h₅ _ => ?_
  have h := h₅.trans (h₄.trans (h₃.trans (h₂.trans h₁)))
  exact closes_end hsemi (fun u hu => hus u (h.subset hu)) .methodEnd _

/-- Whether a constructor is ahead is told by tokens in front of the `;`. -/
theorem atConstructor_confined (hsemi : semi.kind = .semicolon) (owner : String) (rest : List Token)
    (stop : Token) :
    (⟨us ++ semi :: rest, stop, n⟩ : Cursor).atConstructor owner =
      (⟨us, semi, n⟩ : Cursor).atConstructor owner := by
  rcases us with _ | ⟨name, _ | ⟨paren, us⟩⟩
  · cases rest <;> simp [Cursor.atConstructor, hsemi]
  · simp [Cursor.atConstructor, hsemi]
  · rfl

/-- Where no `static` stands in front, the two tokens ahead decide between a constructor and a
method. Neither reads past the `;`. -/
theorem closes_member_behind (hsemi : semi.kind = .semicolon)
    (hus : ∀ u ∈ us, u.kind ≠ .semicolon) (owner : String) (start : Span) :
    Closes semi (cursor >>= fun here => if here.atConstructor owner then
      constructorDecl owner start else methodDecl owner start false) us n := by
  have hlook (rest : List Token) (stop : Token) :
      (cursor >>= fun here => if here.atConstructor owner then constructorDecl owner start
        else methodDecl owner start false) ⟨us ++ semi :: rest, stop, n⟩ =
      (if (⟨us, semi, n⟩ : Cursor).atConstructor owner then constructorDecl owner start
        else methodDecl owner start false) ⟨us ++ semi :: rest, stop, n⟩ := by
    rw [bind_of_ok _ Reads.cursor, atConstructor_confined hsemi]
    rfl
  refine Closes.congr ?_ hlook
  split
  · rename_i hat
    cases us with
    | nil => simp [Cursor.atConstructor] at hat
    | cons name us => exact closes_constructorDecl hsemi hus owner start
  · exact closes_methodDecl hsemi hus owner start false

/-- A member is read up to its `;` and no further, or given up in front of it. -/
theorem closes_member (hsemi : semi.kind = .semicolon) (hus : ∀ u ∈ us, u.kind ≠ .semicolon)
    (owner : String) : Closes semi (member owner) us n := by
  refine confined_span.bind_closes fun start us₁ _ h₁ _ => ?_
  refine (confined_accept hsemi (by decide)).bind_closes fun o us₂ m h₂ _ => ?_
  have hus₂ (u : Token) (hu : u ∈ us₂) : u.kind ≠ .semicolon :=
    hus u ((h₂.trans h₁).subset hu)
  cases o with
  | some mark => exact closes_methodDecl hsemi hus₂ owner start true
  | none => exact closes_member_behind hsemi hus₂ owner start

/-- Where the body is not over, a member is tried. -/
theorem nextMember_eq_attempt {c : Cursor} {owner : String}
    (hkind : c.kind ∉ [.closeBrace, .endOfFile, .namespaceEnd]) :
    nextMember owner c = (attempt (member owner) >>= fun
      | .ok read => pure (some (some read))
      | .error d => report d >>= fun _ => skip skipMember >>= fun _ => pure (some none)) c := by
  rw [nextMember, Reads.kind.bind_eq]
  simp only [List.mem_cons, List.not_mem_nil, or_false, not_or] at hkind
  refine congrFun ?_ c
  split
  · exact absurd ‹_› hkind.1
  · exact absurd ‹_› hkind.2.1
  · exact absurd ‹_› hkind.2.2
  · rfl

end Parser

end BindingIdl
