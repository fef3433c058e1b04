import BindingIdl.Proofs.Grammar.Progress

/-!
# Nothing behind the end of the file counts

The tokens of a file may state its end, even more than once, and other tokens may stand behind
that. No parser passes the first of these ends, and none looks behind it. `Cursor.upToEnd` is a
cursor without what stands there; a file that does not state its end has the same cursor as if it
did. `Parser.Heeds p c Q` says that `p`, started at `c`, does the same as in the file that is cut
off, and comes to the same place in it. `Q` is what is known where it answers.

There is one rule for each primitive and each way to put parsers together, then one lemma for each
parser of the grammar. A token is taken only where it cannot be the end: its kind was looked at, or
the loop in front of it is not left anywhere else, so what `heeds_nextParameter` and
`heeds_nextMember` say of their last step is needed behind the loop. A repetition heeds the end when
its step does, by induction on the tokens ahead. `Progresses` is needed there, since what bounds a
repetition is everything ahead, also behind the end.

A file is then read as if it were cut off (`InterfaceFile.reading_upToEnd`), and everything else
that is said of the grammar is said of the file that is.
-/

namespace BindingIdl

/-! ## Files that are cut off -/

namespace Cursor

/-- The same place in the file as it is without what stands behind its end. -/
def upToEnd (c : Cursor) : Cursor where
  rest := c.rest.takeWhile (·.kind ≠ .endOfFile)
  stop := (c.rest.find? (·.kind = .endOfFile)).getD c.stop
  nextId := c.nextId

section

variable {t e stop : Token} {ts rest : List Token} {n : NodeId}

/-- A token in front of the end stays. -/
theorem upToEnd_cons (ht : t.kind ≠ .endOfFile) :
    (⟨t :: ts, stop, n⟩ : Cursor).upToEnd =
      { (⟨ts, stop, n⟩ : Cursor).upToEnd with
        rest := t :: (⟨ts, stop, n⟩ : Cursor).upToEnd.rest } := by
  simp [upToEnd, ht]

/-- The end that is stated becomes the place behind all tokens. -/
theorem upToEnd_cons_end (he : e.kind = .endOfFile) :
    (⟨e :: rest, stop, n⟩ : Cursor).upToEnd = ⟨[], e, n⟩ := by
  simp [upToEnd, he]

/-- The end that is stated comes in the place of the one that is not. -/
theorem upToEnd_append (hts : ∀ t ∈ ts, t.kind ≠ .endOfFile) (he : e.kind = .endOfFile) :
    (⟨ts ++ e :: rest, stop, n⟩ : Cursor).upToEnd = ⟨ts, e, n⟩ := by
  induction ts with
  | nil => exact upToEnd_cons_end he
  | cons t ts ih =>
    rw [List.cons_append, upToEnd_cons (hts t List.mem_cons_self),
      ih fun u hu => hts u (List.mem_cons_of_mem t hu)]

/-- Where no end is stated, there is nothing to cut off. -/
theorem upToEnd_of_forall {c : Cursor} (h : ∀ t ∈ c.rest, t.kind ≠ .endOfFile) :
    c.upToEnd = c := by
  obtain ⟨ts, stop, n⟩ := c
  induction ts with
  | nil => rfl
  | cons t ts ih =>
    rw [upToEnd_cons (h t List.mem_cons_self), ih fun u hu => h u (List.mem_cons_of_mem t hu)]

/-- Cut off at its end, a file does not state it any more. -/
theorem kind_ne_of_mem_upToEnd (c : Cursor) : ∀ t ∈ c.upToEnd.rest, t.kind ≠ .endOfFile :=
  fun t ht => by simpa using List.all_eq_true.mp List.all_takeWhile t ht

/-- Either the tokens ahead do not state the end of the file, or they do so in one place first. -/
theorem end_cases (ts : List Token) : (∀ t ∈ ts, t.kind ≠ .endOfFile) ∨
    ∃ us e rest, ts = us ++ e :: rest ∧ (∀ t ∈ us, t.kind ≠ .endOfFile) ∧ e.kind = .endOfFile := by
  induction ts with
  | nil => exact .inl nofun
  | cons t ts ih =>
    by_cases ht : t.kind = .endOfFile
    · exact .inr ⟨[], t, ts, rfl, nofun, ht⟩
    · obtain hnone | ⟨us, e, rest, rfl, hus, he⟩ := ih
      · exact .inl (List.forall_mem_cons.mpr ⟨ht, hnone⟩)
      · exact .inr ⟨t :: us, e, rest, rfl, List.forall_mem_cons.mpr ⟨ht, hus⟩, he⟩

end

variable (c : Cursor)

/-- A file that is cut off is no longer than it was, so a bound for the one is a bound for the
other. -/
theorem length_upToEnd : c.upToEnd.rest.length ≤ c.rest.length :=
  (List.takeWhile_sublist _).length_le

/-- The token ahead is there in both files. -/
@[simp] theorem current_upToEnd : c.upToEnd.current = c.current := by
  obtain ⟨_ | ⟨t, ts⟩, stop, n⟩ := c
  · rfl
  · by_cases ht : t.kind = .endOfFile
    · rw [upToEnd_cons_end ht]
      rfl
    · rw [upToEnd_cons ht]
      rfl

@[simp] theorem kind_upToEnd : c.upToEnd.kind = c.kind := by
  obtain ⟨_ | ⟨t, ts⟩, stop, n⟩ := c
  · rfl
  · by_cases ht : t.kind = .endOfFile
    · rw [upToEnd_cons_end ht]
      exact ht.symm
    · rw [upToEnd_cons ht]
      rfl

@[simp] theorem atEnd_upToEnd : c.upToEnd.atEnd = c.atEnd := by
  simp only [atEnd, kind_upToEnd]

/-- A complaint about what is ahead is the same in both files, also at their end. -/
@[simp] theorem unexpected_upToEnd (expected : Expectation) :
    c.upToEnd.unexpected expected = c.unexpected expected := by
  simp only [unexpected, atEnd_upToEnd, current_upToEnd]

/-- No parenthesis behind the end makes a constructor. -/
@[simp] theorem atConstructor_upToEnd (owner : String) :
    c.upToEnd.atConstructor owner = c.atConstructor owner := by
  obtain ⟨_ | ⟨name, ts⟩, stop, n⟩ := c
  · rfl
  by_cases hname : name.kind = .endOfFile
  · rw [upToEnd_cons_end hname]
    cases ts <;> simp [atConstructor, hname]
  rw [upToEnd_cons hname]
  obtain _ | ⟨paren, ts⟩ := ts
  · rfl
  by_cases hparen : paren.kind = .endOfFile
  · rw [upToEnd_cons_end hparen]
    simp [atConstructor, hparen]
  · rw [upToEnd_cons hparen]
    rfl

variable {c} in
/-- A token that is not the end may be taken. -/
theorem advance_upToEnd (h : c.kind ≠ .endOfFile) : c.upToEnd.advance = c.advance.upToEnd := by
  obtain ⟨_ | ⟨t, ts⟩, stop, n⟩ := c
  · rfl
  · rw [upToEnd_cons h]
    rfl

end Cursor

/-- What is answered in the file that is cut off. -/
def Parsed.upToEnd {α : Type} (p : Parsed α) : Parsed α := { p with next := p.next.upToEnd }

/-- Where a parser comes to is no part of what it complains about. -/
theorem Parsed.errors_upToEnd {α : Type} (p : Parsed α) : p.upToEnd.errors = p.errors := rfl

/-! ## Recovery -/

section

variable {e : Token} (he : e.kind = .endOfFile)
include he

/-- Giving a member up stops in front of the end. -/
theorem skipMember_append_end (ts rest : List Token) :
    skipMember (ts ++ e :: rest) = skipMember ts ++ e :: rest := by
  induction ts with
  | nil => simp [skipMember, he]
  | cons t ts ih =>
    simp only [List.cons_append, skipMember]
    split <;> first | rfl | exact ih

/-- So does giving an item up, however many braces are open. -/
theorem skipItem_append_end (depth : Nat) (ts rest : List Token) :
    skipItem depth (ts ++ e :: rest) = skipItem depth ts ++ e :: rest := by
  fun_induction skipItem depth ts with
  | case1 => simp [skipItem, he]
  | case13 =>
    rename_i ih
    rw [List.cons_append, skipItem.eq_12, ih] <;> assumption
  | _ => simp_all [skipItem]

end

namespace Parser

variable {α β : Type} {c : Cursor}

/-! ## Rules -/

/-- Started at `c`, the parser does the same in the file that is cut off at its end, and it comes to
the same place in it; and `Q` holds of its answer and of where it comes to. -/
structure Heeds (p : Parser α) (c : Cursor) (Q : α → Cursor → Prop) : Prop where
  same : p c.upToEnd = (p c).upToEnd
  answer : ∀ a, (p c).outcome = .ok a → Q a (p c).next

variable {P Q : α → Cursor → Prop} {R : β → Cursor → Prop}

theorem Heeds.imp {p : Parser α} (h : Heeds p c P) (hQ : ∀ a next, P a next → Q a next) :
    Heeds p c Q :=
  ⟨h.same, fun a ha => hQ a _ (h.answer a ha)⟩

/-- An answer without a step is the same anywhere. -/
theorem Heeds.pure {a : α} (h : Q a c) : Heeds (pure a) c Q where
  same := rfl
  answer := by
    rintro _ ⟨⟩
    exact h

/-- Behind a parser that heeds the end, the next one starts at the same place in both files. -/
theorem Heeds.bind {p : Parser α} {f : α → Parser β} (h : Heeds p c Q)
    (hf : ∀ a mid, Q a mid → Heeds (f a) mid R) : Heeds (p >>= f) c R := by
  obtain ⟨hsame, hanswer⟩ := h
  rcases hp : p c with ⟨outcome, reported, mid⟩
  rw [hp] at hsame hanswer
  cases outcome with
  | error d =>
    have hrun := bind_of_error f hp
    refine ⟨?_, ?_⟩ <;> rw [hrun]
    · exact bind_of_error f hsame
    · nofun
  | ok a =>
    have hrun := bind_of_ok f hp
    have hrest := hf a mid (hanswer a rfl)
    refine ⟨?_, ?_⟩ <;> rw [hrun]
    · rw [bind_of_ok f hsame, Parsed.upToEnd, hrest.same]
      rfl
    · exact hrest.answer

/-- Behind a clean step whose answer is known in both files. -/
theorem Heeds.after {p : Parser α} {f : α → Parser β} {a : α} {mid : Cursor}
    (hp : Reads p c a mid) (hp' : Reads p c.upToEnd a mid.upToEnd) (hf : Heeds (f a) mid R) :
    Heeds (p >>= f) c R := by
  have hrun := hp.bind_eq f
  refine ⟨?_, ?_⟩ <;> rw [hrun]
  · rw [hp'.bind_eq f, hf.same]
  · exact hf.answer

/-- What is asked of the cursor has to be the same in both files. -/
theorem Heeds.cursor {f : Cursor → Parser β} (hsame : f c.upToEnd = f c) (hf : Heeds (f c) c R) :
    Heeds (Parser.cursor >>= f) c R := by
  have hrun := Reads.cursor.bind_eq (c := c) f
  refine ⟨?_, ?_⟩ <;> rw [hrun]
  · rw [Reads.cursor.bind_eq f, hsame, hf.same]
  · exact hf.answer

/-- The end has a kind in both files, so it is seen in both. -/
theorem Heeds.kind {f : TokenKind → Parser β} (hf : Heeds (f c.kind) c R) :
    Heeds (Parser.kind >>= f) c R :=
  .after .kind (by simpa using Reads.kind (c := c.upToEnd)) hf

theorem Heeds.span {f : Span → Parser β} (hf : Heeds (f c.current.span) c R) :
    Heeds (Parser.span >>= f) c R :=
  .after .span (by simpa using Reads.span (c := c.upToEnd)) hf

/-- The end itself is never taken. -/
theorem Heeds.next {k : TokenKind} {f : Token → Parser β} (h : c.kind = k) (hk : k ≠ .endOfFile)
    (hf : Heeds (f c.current) c.advance R) : Heeds (Parser.next >>= f) c R := by
  have hadvance : c.upToEnd.advance = c.advance.upToEnd := Cursor.advance_upToEnd (h ▸ hk)
  refine .after (reads_next_iff.mpr ⟨rfl, rfl⟩) (reads_next_iff.mpr ⟨?_, hadvance.symm⟩) hf
  exact c.current_upToEnd.symm

theorem heeds_fail {d : Diagnostic} : Heeds (fail d) c Q := ⟨rfl, nofun⟩

theorem heeds_refuse {expected : Expectation} : Heeds (refuse expected) c Q where
  same := by simp [refuse, Parsed.upToEnd]
  answer := nofun

theorem heeds_report {d : Diagnostic} : Heeds (report d) c fun _ _ => True :=
  ⟨rfl, fun _ _ => trivial⟩

theorem heeds_require {holds : Bool} {d : Diagnostic} :
    Heeds (require holds d) c fun _ _ => True := by
  cases holds with
  | true => exact .pure trivial
  | false => exact heeds_report

theorem heeds_freshId : Heeds freshId c fun _ _ => True := ⟨rfl, fun _ _ => trivial⟩

/-- A kind is asked for that the end does not have. -/
theorem heeds_accept {k : TokenKind} (hk : k ≠ .endOfFile) :
    Heeds (accept k) c fun _ _ => True := by
  refine ⟨?_, fun _ _ => trivial⟩
  by_cases h : c.kind = k
  · have hmore : c.kind ≠ .endOfFile := h ▸ hk
    simp [accept, h, Parsed.upToEnd, Cursor.advance_upToEnd hmore]
  · simp [accept, h, Parsed.upToEnd]

/-- At the end both runs complain about the same place. -/
theorem heeds_expect {k : TokenKind} (hk : k ≠ .endOfFile) {expected : Expectation} :
    Heeds (expect k expected) c fun _ _ => True := by
  refine ⟨?_, fun _ _ => trivial⟩
  by_cases h : c.kind = k
  · have hmore : c.kind ≠ .endOfFile := h ▸ hk
    simp [expect, h, Parsed.upToEnd, Cursor.advance_upToEnd hmore]
  · simp [expect, h, Parsed.upToEnd]

/-- Tokens may be dropped as long as the end is not among them. -/
theorem heeds_skip {drop : List Token → List Token} (hsuffix : ∀ ts, drop ts <:+ ts)
    (hend : ∀ e : Token, e.kind = .endOfFile →
      ∀ ts rest, drop (ts ++ e :: rest) = drop ts ++ e :: rest) :
    Heeds (skip drop) c fun _ _ => True := by
  refine ⟨?_, fun _ _ => trivial⟩
  obtain ⟨ts, stop, n⟩ := c
  have hdrop {us : List Token} (hus : ∀ t ∈ us, t.kind ≠ .endOfFile) :
      ∀ t ∈ drop us, t.kind ≠ .endOfFile := fun t ht => hus t ((hsuffix us).subset ht)
  obtain hnone | ⟨us, e, rest, rfl, hus, he⟩ := Cursor.end_cases ts
  · have hcut : (⟨drop ts, stop, n⟩ : Cursor).upToEnd = ⟨drop ts, stop, n⟩ :=
      Cursor.upToEnd_of_forall (hdrop hnone)
    rw [Cursor.upToEnd_of_forall hnone]
    simp only [skip, Parsed.upToEnd, hcut]
  · rw [Cursor.upToEnd_append hus he]
    simp only [skip, Parsed.upToEnd, hend e he, Cursor.upToEnd_append (hdrop hus) he]

/-- What stops the parser inside is an answer of the attempt. -/
theorem Heeds.attempt {p : Parser α} (h : Heeds p c Q) :
    Heeds (Parser.attempt p) c fun _ _ => True where
  same := by
    simp only [Parser.attempt, h.same]
    rfl
  answer _ _ := trivial

/-- What may be absent heeds the end as it does where it is there. -/
theorem heeds_forM {f : α → Parser Unit} (hf : ∀ a c, Heeds (f a) c fun _ _ => True)
    (o : Option α) (c : Cursor) : Heeds (o.forM f) c fun _ _ => True := by
  cases o with
  | none => exact .pure trivial
  | some a => exact hf a c

/-- Steps that heed the end do so again and again. Behind their answers stands what the last step
came to. -/
theorem heeds_collect {step : Parser (Option α)} {S : Cursor → Prop} (hprogress : Progresses step)
    (hstep : ∀ c, Heeds step c fun o next => o = none → S next) :
    Heeds (collect step) c fun _ next => S next := by
  induction hn : c.rest.length using Nat.strong_induction_on generalizing c with
  | _ n ih =>
    obtain ⟨hsame, hanswer⟩ := hstep c
    -- a step is stopped, says that this was all, or has one more
    rcases hrun : step c with ⟨d | _ | a, reported, mid⟩ <;> rw [hrun] at hsame hanswer
    · have hcollect := collect_of_error hprogress hrun
      refine ⟨?_, ?_⟩ <;> rw [hcollect]
      · exact collect_of_error hprogress hsame
      · nofun
    · have hcollect := collect_of_none hprogress hrun
      refine ⟨?_, ?_⟩ <;> rw [hcollect]
      · exact collect_of_none hprogress hsame
      · exact fun _ _ => hanswer none rfl rfl
    · have hcollect := collect_of_some hprogress hrun
      have hshorter : mid.rest.length < c.rest.length := by
        have := hprogress c a (by rw [hrun])
        rwa [hrun] at this
      obtain ⟨hrest, hlast⟩ := ih mid.rest.length (by omega) rfl
      refine ⟨?_, ?_⟩ <;> rw [hcollect]
      · rw [collect_of_some hprogress hsame, hrest]
        rfl
      · intro as has
        cases hothers : (collect step mid).outcome with
        | error d => simp [Parsed.following, hothers, Except.map] at has
        | ok others => exact hlast others hothers

/-- The same where nothing is known of where the steps end. -/
theorem heeds_collect_any {step : Parser (Option α)} (hprogress : Progresses step)
    (hstep : ∀ c, Heeds step c fun _ _ => True) : Heeds (collect step) c fun _ _ => True :=
  heeds_collect hprogress fun c => (hstep c).imp fun _ _ _ _ => trivial

/-! ## Names and types -/

theorem heeds_nextSegment (expected : Expectation) :
    Heeds (nextSegment expected) c fun _ _ => True := by
  refine (heeds_accept (by decide)).bind fun o mid _ => ?_
  cases o with
  | none => exact .pure trivial
  | some colons => exact (heeds_expect (by decide)).bind fun _ _ _ => .pure trivial

/-- The loop over segments stops at the end at the latest. -/
theorem heeds_segments (expected : Expectation) :
    Heeds (collect (nextSegment expected)) c fun _ _ => True :=
  heeds_collect_any (progresses_nextSegment expected) fun _ => heeds_nextSegment expected

theorem heeds_qualifiedName (expected : Expectation) :
    Heeds (qualifiedName expected) c fun _ _ => True :=
  (heeds_expect (by decide)).bind fun _ _ _ =>
    (heeds_segments expected).bind fun _ _ _ => .pure trivial

theorem heeds_typeHead : Heeds typeHead c fun _ _ => True := by
  refine (heeds_qualifiedName .typeName).bind fun name mid _ => .kind ?_
  split
  · exact .pure trivial
  · rename_i hless
    split
    · exact heeds_refuse
    · refine .next (not_not.mp hless) (by decide) ?_
      refine (heeds_qualifiedName .pointee).bind fun inner _ _ => ?_
      exact (heeds_expect (by decide)).bind fun _ _ _ => .pure trivial

theorem heeds_indirection : Heeds indirection c fun _ _ => True := by
  refine (heeds_accept (by decide)).bind fun o mid _ => ?_
  cases o with
  | some mark => exact .pure trivial
  | none =>
    refine (heeds_accept (by decide)).bind fun o _ _ => ?_
    cases o with
    | some mark => exact .pure trivial
    | none => exact .pure trivial

/-- The span of a type ends with a token that was taken, so no token behind the end is in it. -/
theorem heeds_typeExpr : Heeds typeExpr c fun _ _ => True := by
  refine .span ((heeds_accept (by decide)).bind fun const? _ _ => ?_)
  refine heeds_typeHead.bind fun head _ _ => ?_
  refine heeds_indirection.bind fun passing _ _ => ?_
  exact heeds_freshId.bind fun _ _ _ => .pure trivial

/-! ## Members -/

/-- A default value is complained about at its `=`, which is not the end. -/
theorem heeds_parameter (owner member : String) :
    Heeds (parameter owner member) c fun _ _ => True := by
  refine heeds_typeExpr.bind fun type _ _ => ?_
  refine (heeds_expect (by decide)).bind fun name _ _ => .kind ?_
  split
  · exact .span heeds_fail
  · exact heeds_freshId.bind fun _ _ _ => .pure trivial

/-- The list of parameters is over at a closing parenthesis, and nowhere else. -/
theorem heeds_nextParameter (owner member : String) :
    Heeds (nextParameter owner member) c fun o next => o = none → next.kind = .closeParen := by
  refine .kind ?_
  split
  · exact .pure fun _ => ‹_›
  · refine (heeds_parameter owner member).bind fun param _ _ => .kind ?_
    split
    · exact (heeds_expect (by decide)).bind fun _ _ _ => .pure nofun
    · exact .pure nofun

/-- Behind the loop comes its parenthesis: the loop is left nowhere else without an error. -/
theorem heeds_parameters (owner member : String) :
    Heeds (parameters owner member) c fun _ _ => True := by
  refine (heeds_expect (by decide)).bind fun opening _ _ => ?_
  refine (heeds_collect (progresses_nextParameter owner member) fun _ =>
    heeds_nextParameter owner member).bind fun params mid hclose => ?_
  exact .next hclose (by decide) (.pure trivial)

/-- A constructor, whose name is ahead. -/
theorem heeds_constructorDecl (owner : String) (start : Span) (h : c.atConstructor owner = true) :
    Heeds (constructorDecl owner start) c fun _ _ => True := by
  have hkind : c.kind = .identifier := by
    obtain ⟨ahead, hname, -⟩ := Cursor.ahead_of_atConstructor h
    rw [Cursor.kind, ahead]
    exact hname
  refine .next hkind (by decide) ((heeds_parameters owner owner).bind fun params _ _ => ?_)
  refine (heeds_expect (by decide)).bind fun semi _ _ => ?_
  exact heeds_freshId.bind fun _ _ _ => .pure trivial

theorem heeds_requireMethodName (owner : String) (isStatic : Bool) (name : Token) :
    Heeds (requireMethodName owner isStatic name) c fun _ _ => True := by
  cases isStatic with
  | true => exact heeds_require
  | false => exact heeds_require

theorem heeds_constMark (owner : String) (isStatic : Bool) (name : String) :
    Heeds (constMark owner isStatic name) c fun _ _ => True := by
  refine (heeds_accept (by decide)).bind fun o _ _ => ?_
  cases o with
  | none => exact .pure trivial
  | some mark => exact heeds_require.bind fun _ _ _ => .pure trivial

theorem heeds_methodDecl (owner : String) (start : Span) (isStatic : Bool) :
    Heeds (methodDecl owner start isStatic) c fun _ _ => True := by
  refine heeds_typeExpr.bind fun returns _ _ => ?_
  refine (heeds_expect (by decide)).bind fun name _ _ => ?_
  refine (heeds_requireMethodName owner isStatic name).bind fun _ _ _ => ?_
  refine (heeds_parameters owner name.text).bind fun params _ _ => ?_
  refine (heeds_constMark owner isStatic name.text).bind fun isConst _ _ => ?_
  refine (heeds_expect (by decide)).bind fun semi _ _ => ?_
  exact heeds_freshId.bind fun _ _ _ => .pure trivial

theorem heeds_member (owner : String) : Heeds (member owner) c fun _ _ => True := by
  refine .span ((heeds_accept (by decide)).bind fun o mid _ => ?_)
  cases o with
  | some mark => exact heeds_methodDecl owner _ true
  | none =>
    refine .cursor (by rw [Cursor.atConstructor_upToEnd]) ?_
    split
    · exact heeds_constructorDecl owner _ ‹_›
    · exact heeds_methodDecl owner _ false

/-! ## Classes -/

/-- The body of a class is over at a closing brace, and nowhere else. -/
theorem heeds_nextMember (owner : String) :
    Heeds (nextMember owner) c fun o next => o = none → next.kind = .closeBrace := by
  refine .kind ?_
  split
  · exact .pure fun _ => ‹_›
  · exact heeds_refuse
  · exact heeds_refuse
  · refine (heeds_member owner).attempt.bind fun r _ _ => ?_
    cases r with
    | ok read => exact .pure nofun
    | error d =>
      refine heeds_report.bind fun _ _ _ => ?_
      exact (heeds_skip skipMember_suffix fun e he => skipMember_append_end he).bind
        fun _ _ _ => .pure nofun

theorem heeds_reportAll (ds : List Diagnostic) : Heeds (reportAll ds) c fun _ _ => True := by
  induction ds generalizing c with
  | nil => exact .pure trivial
  | cons d ds ih => exact heeds_report.bind fun _ _ _ => ih

/-- Reports that are made on a condition, before the parser goes on. -/
theorem heeds_reportAll_when {holds : Bool} {ds : List Diagnostic} {p : Parser α}
    (hp : ∀ c, Heeds p c Q) (c : Cursor) :
    Heeds (if holds = true then reportAll ds >>= fun _ => p else p) c Q := by
  split
  · exact (heeds_reportAll ds).bind fun _ next _ => hp next
  · exact hp c

/-- Behind the loop over members comes a brace or the end, and the brace is taken only if it is
there. -/
theorem heeds_classBody (settings : GrammarSettings) (start : Span) (name : String)
    (override : Option IncludeOverride) :
    Heeds (classBody settings start name override) c fun _ _ => True := by
  refine (heeds_expect (by decide)).bind fun opening _ _ => ?_
  refine (heeds_collect (progresses_nextMember name) fun _ => heeds_nextMember name).bind
    fun read mid hclose => ?_
  have hclassDecl (decl : NodeId → ClassDecl) (c : Cursor) :
      Heeds (freshId >>= fun id => Pure.pure (decl id)) c fun _ _ => True :=
    heeds_freshId.bind fun _ _ _ => .pure trivial
  refine .next hclose (by decide) ((heeds_accept (by decide)).bind fun semi _ _ => ?_)
  cases semi with
  | some semi => exact heeds_reportAll_when (hclassDecl _) _
  | none =>
    refine .cursor (by rw [Cursor.unexpected_upToEnd]) (heeds_report.bind fun _ _ _ => ?_)
    exact heeds_reportAll_when (hclassDecl _) _

theorem heeds_qualifiedForward (start : Span) (first : Token) :
    Heeds (qualifiedForward start first) c fun _ _ => True := by
  refine (heeds_segments .className).bind fun more _ _ => .span ?_
  exact (heeds_expect (by decide)).bind fun _ _ _ => heeds_report

/-- A class or forward declaration, whose keyword is ahead. -/
theorem heeds_classItem (settings : GrammarSettings) (override : Option IncludeOverride)
    (hkeyword : c.kind = .classKeyword) :
    Heeds (classItem settings override) c fun _ _ => True := by
  refine .next hkeyword (by decide) ((heeds_expect (by decide)).bind fun name _ _ => .kind ?_)
  split
  · exact (heeds_qualifiedForward _ name).bind fun _ _ _ => .pure trivial
  · refine heeds_require.bind fun _ _ _ => (heeds_accept (by decide)).bind fun semi _ _ => ?_
    cases semi with
    | none => exact (heeds_classBody settings _ name.text override).bind fun _ _ _ => .pure trivial
    | some semi =>
      have hdangling := heeds_forM (f := reportDangling) (fun _ _ => heeds_report) override
      exact (hdangling _).bind fun _ _ _ => heeds_freshId.bind fun _ _ _ => .pure trivial

/-! ## Namespaces -/

theorem heeds_closingName (marker : Token) :
    Heeds (closingName marker) c fun _ _ => True := by
  refine .span ?_
  split
  · exact (heeds_accept (by decide)).bind fun _ _ _ => .pure trivial
  · exact .pure trivial

/-- A namespace, whose keyword is ahead. What closes it is taken where the file goes on. -/
theorem heeds_namespaceItem {body : Parser (List Item)} (override : Option IncludeOverride)
    (hbody : ∀ c, Heeds body c fun _ _ => True) (hkeyword : c.kind = .namespaceKeyword) :
    Heeds (namespaceItem body override) c fun _ _ => True := by
  refine .next hkeyword (by decide) ((heeds_accept (by decide)).bind fun name _ _ => ?_)
  refine (heeds_forM (fun _ _ => heeds_require) name _).bind fun _ _ _ => ?_
  refine (heeds_expect (by decide)).bind fun opening _ _ => ?_
  refine (hbody _).bind fun items mid _ => .cursor (by rw [Cursor.atEnd_upToEnd]) ?_
  split
  · exact heeds_fail
  · rename_i hopen
    refine .next rfl (fun hend => hopen (decide_eq_true hend)) ?_
    refine (heeds_closingName _).bind fun closeName _ _ => ?_
    exact heeds_freshId.bind fun _ _ _ => .pure trivial

/-! ## Items -/

/-- An item heeds the end if the body of a block does. -/
theorem heeds_item (settings : GrammarSettings) {body : Parser (List Item)}
    (hbody : ∀ c, Heeds body c fun _ _ => True) :
    Heeds (item settings body) c fun _ _ => True := by
  have hinclude : Heeds includeOverride c fun _ _ => True :=
    (heeds_accept (by decide)).bind fun _ _ _ => .pure trivial
  refine hinclude.bind fun override mid _ => .kind ?_
  split
  · rename_i hkeyword
    exact (heeds_namespaceItem override hbody hkeyword).bind fun _ _ _ => .pure trivial
  · rename_i hkeyword
    exact heeds_classItem settings override hkeyword
  · cases override with
    | none => exact heeds_refuse
    | some dangling => exact heeds_report.bind fun _ _ _ => .pure trivial

theorem heeds_closing (nested : Bool) :
    Heeds (if nested then pure none else span >>= fun s => fail (.about s .unmatchedNamespaceEnd) :
      Parser (Option (Option Item))) c fun _ _ => True := by
  split
  · exact .pure trivial
  · exact .span heeds_fail

/-- One turn of the loop over items, with the recovery behind a broken one. -/
theorem heeds_nextItem (settings : GrammarSettings) (nested : Bool) {body : Parser (List Item)}
    (hbody : ∀ c, Heeds body c fun _ _ => True) :
    Heeds (nextItem settings nested body) c fun _ _ => True := by
  refine .kind ?_
  split
  · exact .pure trivial
  · exact heeds_closing nested
  · exact heeds_closing nested
  · refine (heeds_item settings hbody).attempt.bind fun r mid _ => ?_
    cases r with
    | ok read => exact .pure trivial
    | error d =>
      refine .cursor (by rw [Cursor.atEnd_upToEnd]) ?_
      split
      · exact heeds_fail
      · refine heeds_report.bind fun _ _ _ => ?_
        exact (heeds_skip (skipItem_suffix 0) fun e he => skipItem_append_end he 0).bind
          fun _ _ _ => .pure trivial

/-- However deep namespaces go: the induction is on the bound for it. -/
theorem heeds_itemsWithin (settings : GrammarSettings) (nested : Bool) (ahead : List Token) :
    Heeds (itemsWithin settings nested ahead) c fun _ _ => True := by
  induction ahead generalizing nested c with
  | nil => exact .pure trivial
  | cons t ahead ih =>
    have hprogress :=
      progresses_nextItem settings nested (shrinks_itemsWithin settings true ahead)
    have hread := heeds_collect_any (c := c) hprogress
      fun _ => heeds_nextItem settings nested fun _ => ih true
    exact hread.bind fun _ _ _ => .pure trivial

end Parser

/-! ## Files -/

namespace InterfaceFile

variable {settings : GrammarSettings} {size : Nat} {tokens : List Token}

/-- The cursor before tokens that an end of the file closes. -/
theorem beginning_append {ts rest : List Token} {e : Token} (size : Nat)
    (hts : ∀ t ∈ ts, t.kind ≠ .endOfFile) (he : e.kind = .endOfFile) :
    (beginning size (ts ++ e :: rest)).upToEnd = ⟨ts, e, 0⟩ :=
  Cursor.upToEnd_append hts he

/-- The run over a file is the run over the file that is cut off, where nothing is behind the end
that could bound it. -/
theorem reading_upToEnd (settings : GrammarSettings) (size : Nat) (tokens : List Token) :
    itemsWithin settings false (beginning size tokens).upToEnd.rest
      (beginning size tokens).upToEnd = (reading settings size tokens).upToEnd := by
  rw [Parser.itemsWithin_congr settings false (Nat.le_refl _)
    (beginning size tokens).length_upToEnd]
  exact (Parser.heeds_itemsWithin settings false (beginning size tokens).rest).same

/-- Files that are the same when they are cut off are read to the same. -/
theorem ofTokens_congr {size' : Nat} {tokens' : List Token}
    (h : (beginning size tokens).upToEnd = (beginning size' tokens').upToEnd) :
    ofTokens settings size tokens = ofTokens settings size' tokens' := by
  have hsame := reading_upToEnd settings size tokens
  rw [h, reading_upToEnd] at hsame
  have houtcome : (reading settings size' tokens').outcome =
      (reading settings size tokens).outcome := congrArg (·.outcome) hsame
  have hreported : (reading settings size' tokens').reported =
      (reading settings size tokens).reported := congrArg (·.reported) hsame
  unfold ofTokens
  dsimp only
  rw [← reading, ← reading, houtcome, hreported]

/-- A file ends at the first token that says so: whatever stands behind it, the answer and the
errors are the same. A list of tokens that does not say so is read as if the end of the text stood
behind it, on the line of the last token. -/
theorem ends_at_first_end (settings : GrammarSettings) (size : Nat) {tokens : List Token}
    (hopen : ∀ t ∈ tokens, t.kind ≠ .endOfFile) :
    (∀ (ending : Token) (behind : List Token), ending.kind = .endOfFile →
      ofTokens settings size (tokens ++ [ending] ++ behind) =
        ofTokens settings size (tokens ++ [ending])) ∧
    ofTokens settings size tokens = ofTokens settings size (tokens ++
      [⟨.endOfFile, "", ⟨size, size, (tokens.getLast?.map (·.span.line)).getD 1⟩⟩]) := by
  have hcut (ending : Token) (behind : List Token) (hending : ending.kind = .endOfFile) :
      (beginning size (tokens ++ ending :: behind)).upToEnd = ⟨tokens, ending, 0⟩ :=
    beginning_append size hopen hending
  constructor
  · intro ending behind hending
    rw [List.append_assoc]
    exact ofTokens_congr ((hcut ending behind hending).trans (hcut ending [] hending).symm)
  · have hnone : (beginning size tokens).upToEnd = ⟨tokens, endToken size tokens, 0⟩ :=
      Cursor.upToEnd_of_forall hopen
    exact ofTokens_congr (hnone.trans (hcut (endToken size tokens) [] rfl).symm)

/-! The end is stated in a class, where a member has just been given up. Behind it stands what would
have mended the class. -/

/-- The beginning of a class whose first member starts with a symbol that nothing knows. -/
def brokenOff : List Token :=
  [⟨.classKeyword, "class", ⟨0, 5, 1⟩⟩, ⟨.identifier, "A", ⟨6, 7, 1⟩⟩,
    ⟨.openBrace, "\x7b", ⟨8, 9, 1⟩⟩, ⟨.unknown, "~", ⟨10, 11, 2⟩⟩]

/-- The end of the file, stated inside the class. -/
def earlyEnd : Token := ⟨.endOfFile, "", ⟨11, 11, 2⟩⟩

/-- What would close the class, if it were read. -/
def mending : List Token :=
  [⟨.semicolon, ";", ⟨12, 13, 2⟩⟩, ⟨.closeBrace, "\x7d", ⟨14, 15, 3⟩⟩,
    ⟨.semicolon, ";", ⟨15, 16, 3⟩⟩, ⟨.endOfFile, "", ⟨17, 17, 4⟩⟩]

/-- The class is left open at the end that is stated, though the tokens behind it would close it:
read on, the file has one error less. -/
theorem brokenOff_ends_at_first_end :
    (∀ t ∈ brokenOff, t.kind ≠ .endOfFile) ∧ earlyEnd.kind = .endOfFile ∧
      ofTokens default 17 (brokenOff ++ [earlyEnd] ++ mending) =
        ofTokens default 17 (brokenOff ++ [earlyEnd]) ∧
      ofTokens default 17 brokenOff =
        ofTokens default 17 (brokenOff ++ [⟨.endOfFile, "", ⟨17, 17, 2⟩⟩]) ∧
      ofTokens default 17 (brokenOff ++ [earlyEnd]) = .error
        [⟨.unexpectedToken .typeName "`~`", 2, ⟨10, 1⟩⟩,
          ⟨.unexpectedEnd (.classClosing "A"), 2, ⟨11, 0⟩⟩] ∧
      ofTokens default 17 (brokenOff ++ mending) = .error
        [⟨.unexpectedToken .typeName "`~`", 2, ⟨10, 1⟩⟩] := by
  have hopen : ∀ t ∈ brokenOff, t.kind ≠ .endOfFile := by decide
  obtain ⟨hbehind, hunstated⟩ := ends_at_first_end default 17 hopen
  exact ⟨hopen, rfl, hbehind earlyEnd mending rfl, hunstated, rfl, rfl⟩

end InterfaceFile

end BindingIdl
