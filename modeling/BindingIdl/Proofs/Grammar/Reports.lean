import BindingIdl.Proofs.Grammar.Reading
import BindingIdl.Proofs.Token.Places

/-!
# What a parser complains about

The clean readings say nothing of what a parser reports when it is stopped, or when it recovers and
goes on. `Parser.Keeps b p c Q` does: started at `c`, somewhere behind `b`, the parser moves on and
never back, and whatever it reports or is stopped by is about tokens ahead of `b`, or about the end
of the file behind them (`Cursor.Blames`). `Q` is what is known when it answers.

There is one rule for each primitive and each way to put parsers together, and then one lemma for
each parser of the grammar, in the order of the grammar. `b` stays the beginning of the file all
the time: a recovery drops tokens, so a diagnostic may be about tokens that are no longer ahead.
-/

namespace BindingIdl

/-- Causes about one place, which say nothing of what is written there. -/
def Cause.isPlain : Cause → Bool
  | .unexpectedToken .. | .unexpectedEnd _ | .duplicateClass .. | .duplicateMember ..
  | .ambiguousConstructor .. => false
  | _ => true

namespace Cursor

/-- The cursor is further on than another one, or at the same place. -/
structure Behind (c b : Cursor) : Prop where
  rest : c.rest <:+ b.rest
  stop : c.stop = b.stop

theorem Behind.refl (c : Cursor) : c.Behind c := ⟨List.suffix_refl _, rfl⟩

theorem Behind.trans {a b c : Cursor} (h : a.Behind b) (h' : b.Behind c) : a.Behind c :=
  ⟨h.rest.trans h'.rest, h.stop.trans h'.stop⟩

theorem behind_advance (c : Cursor) : c.advance.Behind c := ⟨List.tail_suffix _, rfl⟩

/-- What a diagnostic is about for a parser that has come from `b`: a token that it did not expect,
the end of the file, or what stands between two tokens. -/
inductive Blames (b : Cursor) : Diagnostic → Prop
  | found {t : Token} {expected : Expectation} : t ∈ b.rest →
      Blames b (.about t.span (.unexpectedToken expected ("`" ++ t.text ++ "`")))
  | atEnd {t : Token} {expected : Expectation} : t = b.stop ∨ (t ∈ b.rest ∧ t.kind = .endOfFile) →
      Blames b (.about t.span (.unexpectedEnd expected))
  | place {s : Span} {cause : Cause} : s.Joins b.rest → cause.isPlain = true →
      Blames b (.about s cause)
  /-- From a token up to a later one, which may be the end of the file. -/
  | through {t u : Token} {cause : Cause} : [t, u].Sublist (b.rest ++ [b.stop]) →
      cause.isPlain = true → Blames b ⟨cause, t.span.line, (t.span.cover u.span).extent⟩

variable {b c : Cursor}

/-- The token ahead, where there is one. -/
theorem Behind.current_mem (h : c.Behind b) (hc : c.rest ≠ []) : c.current ∈ b.rest := by
  obtain ⟨rest, stop, id⟩ := c
  obtain ⟨t, ts, rfl⟩ := List.exists_cons_of_ne_nil hc
  exact h.rest.subset List.mem_cons_self

/-- What is not the end has a token ahead. -/
theorem rest_ne_nil_of_kind {k : TokenKind} (h : c.kind = k) (hk : k ≠ .endOfFile) :
    c.rest ≠ [] := by
  intro hnil
  rw [kind, hnil] at h
  exact hk h.symm

/-- A plain cause is about one of the tokens ahead. -/
theorem blames_token {t : Token} {cause : Cause} (ht : t ∈ b.rest) (hplain : cause.isPlain = true) :
    b.Blames (.about t.span cause) :=
  .place (Span.joins_of_mem ht) hplain

/-- A token that has been passed, and the token ahead or the end of the file. -/
theorem Behind.pair_sublist {t : Token} {behind : List Token} (h : c.Behind b)
    (hb : t :: behind <:+ b.rest) (hpast : c.rest <:+ behind) :
    [t, c.current].Sublist (b.rest ++ [b.stop]) := by
  obtain ⟨rest, stop, id⟩ := c
  obtain rfl : stop = b.stop := h.stop
  cases rest with
  | nil =>
    have ht : [t].Sublist b.rest := ((List.nil_sublist behind).cons_cons t).trans hb.sublist
    exact ht.append (List.Sublist.refl [b.stop])
  | cons u us =>
    have hu : [u].Sublist behind := ((List.nil_sublist us).cons_cons u).trans hpast.sublist
    exact ((hu.cons_cons t).trans hb.sublist).trans (List.sublist_append_left _ _)

/-- A complaint about what is ahead quotes a token ahead of `b`, or is about the end of the file. -/
theorem Behind.blames_unexpected (h : c.Behind b) (expected : Expectation) :
    b.Blames (c.unexpected expected) := by
  rw [unexpected]
  split
  · rename_i hend
    obtain ⟨rest, stop, id⟩ := c
    cases rest with
    | nil => exact .atEnd (.inl h.stop)
    | cons t ts =>
      exact .atEnd (.inr ⟨h.rest.subset List.mem_cons_self, of_decide_eq_true hend⟩)
  · rename_i hmore
    exact .found (h.current_mem (rest_ne_nil_of_kind rfl fun hend => hmore (decide_eq_true hend)))

end Cursor

namespace Parser

variable {α β : Type} {b c : Cursor}

/-- Started at `c`, the parser moves on, complains only about what is ahead of `b`, and answers what
`Q` says. -/
structure Keeps (b : Cursor) (p : Parser α) (c : Cursor) (Q : α → Cursor → Prop) : Prop where
  reported : ∀ d ∈ (p c).reported, b.Blames d
  behind : (p c).next.Behind c
  answer : ∀ a, (p c).outcome = .ok a → Q a (p c).next
  stopped : ∀ d, (p c).outcome = .error d → b.Blames d

/-! ## Rules -/

theorem Keeps.imp {p : Parser α} {Q R : α → Cursor → Prop} (h : Keeps b p c Q)
    (hQ : ∀ a next, Q a next → R a next) : Keeps b p c R :=
  ⟨h.reported, h.behind, fun a ha => hQ a _ (h.answer a ha), h.stopped⟩

/-- An answer without a step complains about nothing. -/
theorem Keeps.pure {a : α} {Q : α → Cursor → Prop} (h : Q a c) : Keeps b (pure a) c Q where
  reported := by simp [pure_apply]
  behind := .refl c
  answer := by
    rintro _ ⟨⟩
    exact h
  stopped := nofun

/-- Whatever the first parser answers, the second goes on from there. -/
theorem Keeps.bind {p : Parser α} {f : α → Parser β} {P : α → Cursor → Prop}
    {Q : β → Cursor → Prop} (h : Keeps b p c P)
    (hf : ∀ a mid, mid.Behind c → P a mid → Keeps b (f a) mid Q) : Keeps b (p >>= f) c Q := by
  obtain ⟨hreported, hbehind, hanswer, hstopped⟩ := h
  rcases hp : p c with ⟨outcome, reported, mid⟩
  rw [hp] at hreported hbehind hanswer hstopped
  cases outcome with
  | error d =>
    have hrun := bind_of_error f hp
    refine ⟨?_, ?_, ?_, ?_⟩ <;> rw [hrun]
    · exact hreported
    · exact hbehind
    · nofun
    · rintro _ ⟨⟩
      exact hstopped d rfl
  | ok a =>
    have hrun := bind_of_ok f hp
    have hrest := hf a mid hbehind (hanswer a rfl)
    refine ⟨?_, ?_, ?_, ?_⟩ <;> rw [hrun]
    · intro d hd
      obtain hd | hd := List.mem_append.mp hd
      · exact hreported d hd
      · exact hrest.reported d hd
    · exact hrest.behind.trans hbehind
    · exact hrest.answer
    · exact hrest.stopped

theorem keeps_fail {d : Diagnostic} {Q : α → Cursor → Prop} (h : b.Blames d) :
    Keeps b (fail d) c Q where
  reported := by simp [fail]
  behind := .refl c
  answer := nofun
  stopped := by
    rintro _ ⟨⟩
    exact h

/-- The token ahead is one that is ahead of `b`, however far the parser has come. -/
theorem keeps_refuse {expected : Expectation} {Q : α → Cursor → Prop} (hc : c.Behind b) :
    Keeps b (refuse expected) c Q where
  reported := by simp [refuse]
  behind := .refl c
  answer := nofun
  stopped := by
    rintro _ ⟨⟩
    exact hc.blames_unexpected expected

theorem keeps_report {d : Diagnostic} (h : b.Blames d) : Keeps b (report d) c fun _ _ => True where
  reported := by simpa [report] using h
  behind := .refl c
  answer _ _ := trivial
  stopped := nofun

/-- The report that is due where the condition fails is about what is ahead. -/
theorem keeps_require {holds : Bool} {d : Diagnostic} (h : b.Blames d) :
    Keeps b (require holds d) c fun _ _ => True := by
  cases holds with
  | true => exact .pure trivial
  | false => exact keeps_report h

theorem keeps_cursor : Keeps b cursor c fun a next => a = c ∧ next = c where
  reported := by simp [cursor]
  behind := .refl c
  answer := by
    rintro _ ⟨⟩
    exact ⟨rfl, rfl⟩
  stopped := nofun

theorem keeps_kind : Keeps b kind c fun k next => k = c.kind ∧ next = c where
  reported := by simp [kind]
  behind := .refl c
  answer := by
    rintro _ ⟨⟩
    exact ⟨rfl, rfl⟩
  stopped := nofun

theorem keeps_span : Keeps b span c fun s next => s = c.current.span ∧ next = c where
  reported := by simp [span]
  behind := .refl c
  answer := by
    rintro _ ⟨⟩
    exact ⟨rfl, rfl⟩
  stopped := nofun

/-- The token ahead is answered, and behind the last one the end of the file. -/
theorem keeps_next : Keeps b Parser.next c fun t next => t = c.current ∧ next = c.advance where
  reported := by simp [Parser.next]
  behind := c.behind_advance
  answer := by
    rintro _ ⟨⟩
    exact ⟨rfl, rfl⟩
  stopped := nofun

theorem keeps_freshId : Keeps b freshId c fun _ _ => True where
  reported := by simp [freshId]
  behind := ⟨List.suffix_refl _, rfl⟩
  answer _ _ := trivial
  stopped := nofun

/-- A token that is accepted was ahead of `b`. -/
theorem keeps_accept {k : TokenKind} (hk : k ≠ .endOfFile) (hc : c.Behind b) :
    Keeps b (accept k) c fun o _ => ∀ t ∈ o, t ∈ b.rest := by
  by_cases h : c.kind = k
  · have hrun : accept k c = ⟨.ok (some c.current), [], c.advance⟩ := if_pos h
    refine ⟨?_, ?_, ?_, ?_⟩ <;> rw [hrun]
    · nofun
    · exact c.behind_advance
    · rintro _ ⟨⟩ t ⟨⟩
      exact hc.current_mem (Cursor.rest_ne_nil_of_kind h hk)
    · nofun
  · have hrun : accept k c = ⟨.ok none, [], c⟩ := if_neg h
    refine ⟨?_, ?_, ?_, ?_⟩ <;> rw [hrun]
    · nofun
    · exact .refl c
    · rintro _ ⟨⟩ t ⟨⟩
    · nofun

/-- A token that is expected was ahead of `b`, or is complained about. -/
theorem keeps_expect {k : TokenKind} {expected : Expectation} (hk : k ≠ .endOfFile)
    (hc : c.Behind b) : Keeps b (expect k expected) c fun t _ => t ∈ b.rest := by
  by_cases h : c.kind = k
  · have hrun : expect k expected c = ⟨.ok c.current, [], c.advance⟩ := if_pos h
    refine ⟨?_, ?_, ?_, ?_⟩ <;> rw [hrun]
    · nofun
    · exact c.behind_advance
    · rintro _ ⟨⟩
      exact hc.current_mem (Cursor.rest_ne_nil_of_kind h hk)
    · nofun
  · have hrun : expect k expected c = ⟨.error (c.unexpected expected), [], c⟩ := if_neg h
    refine ⟨?_, ?_, ?_, ?_⟩ <;> rw [hrun]
    · nofun
    · exact .refl c
    · nofun
    · rintro _ ⟨⟩
      exact hc.blames_unexpected expected

/-- Recovery drops tokens from the front and complains about nothing. -/
theorem keeps_skip {f : List Token → List Token} (h : ∀ ts, f ts <:+ ts) :
    Keeps b (skip f) c fun _ _ => True where
  reported := by simp [skip]
  behind := ⟨h c.rest, rfl⟩
  answer _ _ := trivial
  stopped := nofun

/-- What stops the parser inside is an answer of the attempt. -/
theorem Keeps.attempt {p : Parser α} {Q : α → Cursor → Prop} (h : Keeps b p c Q) :
    Keeps b (attempt p) c fun r next =>
      (∀ a, r = .ok a → Q a next) ∧ ∀ d, r = .error d → b.Blames d where
  reported := h.reported
  behind := h.behind
  answer := by
    rintro _ ⟨⟩
    exact ⟨h.answer, h.stopped⟩
  stopped := nofun

/-- Steps that keep to the tokens do so again and again. -/
theorem keeps_collect {step : Parser (Option α)} {R : α → Prop}
    (hstep : ∀ c : Cursor, c.Behind b → Keeps b step c fun o _ => ∀ a ∈ o, R a)
    (hc : c.Behind b) : Keeps b (collect step) c fun as _ => ∀ a ∈ as, R a := by
  have hwithin (ahead : List Token) : ∀ c : Cursor, c.Behind b →
      Keeps b (collectWithin step ahead) c fun as _ => ∀ a ∈ as, R a := by
    induction ahead with
    | nil => exact fun c hc => (hstep c hc).bind fun o mid _ ho => .pure (by simpa using ho)
    | cons t ahead ih =>
      refine fun c hc => (hstep c hc).bind fun o mid hmid ho => ?_
      cases o with
      | none => exact .pure (by simp)
      | some a =>
        refine (ih mid (hmid.trans hc)).bind fun as next _ has => .pure ?_
        simpa using ⟨ho a rfl, has⟩
  exact ⟨(hwithin c.rest c hc).reported, (hwithin c.rest c hc).behind,
    (hwithin c.rest c hc).answer, (hwithin c.rest c hc).stopped⟩

/-- The same where nothing is known of what the steps answer. -/
theorem keeps_collect_any {step : Parser (Option α)}
    (hstep : ∀ c : Cursor, c.Behind b → Keeps b step c fun _ _ => True) (hc : c.Behind b) :
    Keeps b (collect step) c fun _ _ => True :=
  (keeps_collect (R := fun _ => True)
    (fun c hc => (hstep c hc).imp fun _ _ _ _ _ => trivial) hc).imp fun _ _ _ => trivial

/-! ## Names and types -/

theorem keeps_nextSegment (expected : Expectation) (hc : c.Behind b) :
    Keeps b (nextSegment expected) c fun _ _ => True := by
  refine (keeps_accept (by decide) hc).bind fun o mid hmid _ => ?_
  cases o with
  | none => exact .pure trivial
  | some colons =>
    exact (keeps_expect (by decide) (hmid.trans hc)).bind fun _ _ _ _ => .pure trivial

theorem keeps_segments (expected : Expectation) (hc : c.Behind b) :
    Keeps b (collect (nextSegment expected)) c fun _ _ => True :=
  keeps_collect_any (fun _ hc => keeps_nextSegment expected hc) hc

theorem keeps_qualifiedName (expected : Expectation) (hc : c.Behind b) :
    Keeps b (qualifiedName expected) c fun _ _ => True :=
  (keeps_expect (by decide) hc).bind fun _ _ hmid _ =>
    (keeps_segments expected (hmid.trans hc)).bind fun _ _ _ _ => .pure trivial

theorem keeps_typeHead (hc : c.Behind b) : Keeps b typeHead c fun _ _ => True := by
  refine (keeps_qualifiedName .typeName hc).bind fun name mid hmid _ => ?_
  have hmid := hmid.trans hc
  refine keeps_kind.bind fun k _ _ hk => ?_
  obtain ⟨-, rfl⟩ := hk
  split
  · exact .pure trivial
  · split
    · exact keeps_refuse hmid
    · refine keeps_next.bind fun _ _ hless _ => ?_
      have hless := hless.trans hmid
      refine (keeps_qualifiedName .pointee hless).bind fun _ _ hinner _ => ?_
      exact (keeps_expect (by decide) (hinner.trans hless)).bind fun _ _ _ _ => .pure trivial

theorem keeps_indirection (hc : c.Behind b) : Keeps b indirection c fun _ _ => True := by
  refine (keeps_accept (by decide) hc).bind fun o mid hmid _ => ?_
  cases o with
  | some mark => exact .pure trivial
  | none =>
    refine (keeps_accept (by decide) (hmid.trans hc)).bind fun o _ _ _ => ?_
    cases o with
    | some mark => exact .pure trivial
    | none => exact .pure trivial

theorem keeps_typeExpr (hc : c.Behind b) : Keeps b typeExpr c fun _ _ => True := by
  refine keeps_span.bind fun start mid hmid _ => ?_
  have hmid := hmid.trans hc
  refine (keeps_accept (by decide) hmid).bind fun const? mid₁ h₁ _ => ?_
  have h₁ := h₁.trans hmid
  refine (keeps_typeHead h₁).bind fun head mid₂ h₂ _ => ?_
  have h₂ := h₂.trans h₁
  refine (keeps_indirection h₂).bind fun mark mid₃ h₃ _ => ?_
  exact keeps_freshId.bind fun _ _ _ _ => .pure trivial

/-! ## Members -/

theorem keeps_parameter (owner member : String) (hc : c.Behind b) :
    Keeps b (parameter owner member) c fun _ _ => True := by
  refine (keeps_typeExpr hc).bind fun type mid₁ h₁ _ => ?_
  have h₁ := h₁.trans hc
  refine (keeps_expect (by decide) h₁).bind fun name mid₂ h₂ _ => ?_
  have h₂ := h₂.trans h₁
  refine keeps_kind.bind fun k _ _ hk => ?_
  obtain ⟨hk, rfl⟩ := hk
  split
  · rename_i hequals
    refine keeps_span.bind fun s _ _ hs => ?_
    obtain ⟨rfl, rfl⟩ := hs
    have hne := Cursor.rest_ne_nil_of_kind (hk.symm.trans hequals) (by decide)
    exact keeps_fail (Cursor.blames_token (h₂.current_mem hne) rfl)
  · exact keeps_freshId.bind fun _ _ _ _ => .pure trivial

theorem keeps_nextParameter (owner member : String) (hc : c.Behind b) :
    Keeps b (nextParameter owner member) c fun _ _ => True := by
  refine keeps_kind.bind fun k _ _ hk => ?_
  obtain ⟨-, rfl⟩ := hk
  split
  · exact .pure trivial
  · refine (keeps_parameter owner member hc).bind fun param mid₁ h₁ _ => ?_
    have h₁ := h₁.trans hc
    refine keeps_kind.bind fun k _ _ hk => ?_
    obtain ⟨-, rfl⟩ := hk
    split
    · exact (keeps_expect (by decide) h₁).bind fun _ _ _ _ => .pure trivial
    · exact .pure trivial

theorem keeps_parameters (owner member : String) (hc : c.Behind b) :
    Keeps b (parameters owner member) c fun _ _ => True := by
  refine (keeps_expect (by decide) hc).bind fun opening mid₁ h₁ _ => ?_
  have h₁ := h₁.trans hc
  have hlist := keeps_collect_any (fun _ hc => keeps_nextParameter owner member hc) h₁
  exact hlist.bind fun _ _ _ _ => keeps_next.bind fun _ _ _ _ => .pure trivial

/-- A constructor spans from where it starts to its `;`. -/
theorem keeps_constructorDecl (owner : String) (start : Span) (hc : c.Behind b) :
    Keeps b (constructorDecl owner start) c fun read _ =>
      ∃ u ∈ b.rest, read.decl.span = start.cover u.span := by
  refine keeps_next.bind fun name mid₁ h₁ _ => ?_
  have h₁ := h₁.trans hc
  refine (keeps_parameters owner owner h₁).bind fun params mid₂ h₂ _ => ?_
  have h₂ := h₂.trans h₁
  refine (keeps_expect (by decide) h₂).bind fun semi mid₃ h₃ hsemi => ?_
  exact keeps_freshId.bind fun id next _ _ => .pure ⟨semi, hsemi, rfl⟩

theorem keeps_requireMethodName (owner : String) (isStatic : Bool) {name : Token}
    (hname : name ∈ b.rest) :
    Keeps b (requireMethodName owner isStatic name) c fun _ _ => True := by
  unfold requireMethodName
  split
  · exact keeps_require (Cursor.blames_token hname rfl)
  · exact keeps_require (Cursor.blames_token hname rfl)

/-- The complaint is about the mark, which has been read. -/
theorem keeps_constMark (owner : String) (isStatic : Bool) (name : String) (hc : c.Behind b) :
    Keeps b (constMark owner isStatic name) c fun _ _ => True := by
  refine (keeps_accept (by decide) hc).bind fun o mid hmid ho => ?_
  cases o with
  | none => exact .pure trivial
  | some mark =>
    exact (keeps_require (Cursor.blames_token (ho mark rfl) rfl)).bind fun _ _ _ _ =>
      .pure trivial

/-- A method spans from where it starts to its `;`, and the complaints on the way are about its name
or a mark of its own. -/
theorem keeps_methodDecl (owner : String) (start : Span) (isStatic : Bool) (hc : c.Behind b) :
    Keeps b (methodDecl owner start isStatic) c fun read _ =>
      ∃ u ∈ b.rest, read.decl.span = start.cover u.span := by
  refine (keeps_typeExpr hc).bind fun returns mid₁ h₁ _ => ?_
  have h₁ := h₁.trans hc
  refine (keeps_expect (by decide) h₁).bind fun name mid₂ h₂ hname => ?_
  have h₂ := h₂.trans h₁
  refine (keeps_requireMethodName owner isStatic hname).bind fun _ mid₃ h₃ _ => ?_
  have h₃ := h₃.trans h₂
  refine (keeps_parameters owner name.text h₃).bind fun params mid₄ h₄ _ => ?_
  have h₄ := h₄.trans h₃
  refine (keeps_constMark owner isStatic name.text h₄).bind fun isConst mid₅ h₅ _ => ?_
  have h₅ := h₅.trans h₄
  refine (keeps_expect (by decide) h₅).bind fun semi mid₆ h₆ hsemi => ?_
  exact keeps_freshId.bind fun id next _ _ => .pure ⟨semi, hsemi, rfl⟩

/-- A member starts at the token ahead, if there is one. -/
theorem keeps_member (owner : String) (hc : c.Behind b) (hne : c.rest ≠ []) :
    Keeps b (member owner) c fun read _ => read.decl.span.Joins b.rest := by
  have joins {read : ReadMember} (h : ∃ u ∈ b.rest, read.decl.span = c.current.span.cover u.span) :
      read.decl.span.Joins b.rest := by
    obtain ⟨u, hu, hspan⟩ := h
    exact ⟨c.current, hc.current_mem hne, u, hu, hspan⟩
  refine keeps_span.bind fun start _ _ hstart => ?_
  obtain ⟨rfl, rfl⟩ := hstart
  refine (keeps_accept (by decide) hc).bind fun o mid hmid _ => ?_
  have hmid := hmid.trans hc
  cases o with
  | some mark => exact (keeps_methodDecl owner _ true hmid).imp fun _ _ => joins
  | none =>
    refine keeps_cursor.bind fun _ _ _ hcursor => ?_
    obtain ⟨rfl, rfl⟩ := hcursor
    split
    · exact (keeps_constructorDecl owner _ hmid).imp fun _ _ => joins
    · exact (keeps_methodDecl owner _ false hmid).imp fun _ _ => joins

/-! ## Classes -/

/-- Giving up a member drops tokens from the front only. -/
theorem skipMember_suffix (ts : List Token) : skipMember ts <:+ ts := by
  induction ts with
  | nil => exact List.suffix_refl _
  | cons t ts ih =>
    rw [skipMember]
    split
    · exact List.suffix_refl _
    · exact List.suffix_refl _
    · exact List.suffix_refl _
    · exact List.suffix_cons _ _
    · exact ih.trans (List.suffix_cons _ _)

/-- A member that could not be read is reported, and its tokens are dropped. -/
theorem keeps_nextMember (owner : String) (hc : c.Behind b) :
    Keeps b (nextMember owner) c fun o _ =>
      ∀ read ∈ o, ∀ m ∈ read, m.decl.span.Joins b.rest := by
  refine keeps_kind.bind fun k _ _ hk => ?_
  obtain ⟨rfl, rfl⟩ := hk
  split
  · exact .pure nofun
  · exact keeps_refuse hc
  · exact keeps_refuse hc
  · rename_i hother _
    have hne := Cursor.rest_ne_nil_of_kind rfl hother
    refine (keeps_member owner hc hne).attempt.bind fun r mid _ hr => ?_
    cases r with
    | ok read =>
      refine .pure ?_
      rintro _ ⟨⟩ _ ⟨⟩
      exact hr.1 read rfl
    | error d =>
      refine (keeps_report (hr.2 d rfl)).bind fun _ _ _ _ => ?_
      refine (keeps_skip skipMember_suffix).bind fun _ _ _ _ => .pure ?_
      rintro _ ⟨⟩ _ ⟨⟩

/-- A crowded member is one of those read. -/
theorem mem_of_mem_crowded {reads : List ReadMember} {decl : MemberDecl}
    (h : decl ∈ crowded reads) : ∃ read ∈ reads, read.decl = decl := by
  induction reads using crowded.induct with
  | case1 first second rest hline ih =>
    rw [crowded, if_pos hline] at h
    obtain rfl | h := List.mem_cons.mp h
    · exact ⟨second, by simp, rfl⟩
    · obtain ⟨read, hread, hdecl⟩ := ih h
      exact ⟨read, List.mem_cons_of_mem _ hread, hdecl⟩
  | case2 first second rest hline ih =>
    rw [crowded, if_neg hline] at h
    obtain ⟨read, hread, hdecl⟩ := ih h
    exact ⟨read, List.mem_cons_of_mem _ hread, hdecl⟩
  | case3 reads hfew =>
    rw [crowded.eq_2 reads hfew] at h
    cases h

theorem keeps_reportAll {ds : List Diagnostic} (h : ∀ d ∈ ds, b.Blames d) :
    Keeps b (reportAll ds) c fun _ _ => True := by
  induction ds generalizing c with
  | nil => exact .pure trivial
  | cons d ds ih =>
    simp only [reportAll, List.forM_eq_forM, List.forM_cons]
    exact (keeps_report (h d List.mem_cons_self)).bind fun _ _ _ _ =>
      ih fun e he => h e (List.mem_cons_of_mem _ he)

/-- Reports that are made on a condition, before the parser goes on. -/
theorem keeps_reportAll_when {holds : Bool} {ds : List Diagnostic} {p : Parser α}
    {Q : α → Cursor → Prop} (h : ∀ d ∈ ds, b.Blames d) (hp : ∀ c, Keeps b p c Q) (c : Cursor) :
    Keeps b (if holds = true then reportAll ds >>= fun _ => p else p) c Q := by
  split
  · exact (keeps_reportAll h).bind fun _ next _ _ => hp next
  · exact hp c

/-- The crowded members are reported behind the brace, and they are about tokens that were ahead of
`b`. -/
theorem keeps_classBody (settings : GrammarSettings) (start : Span) (name : String)
    (override : Option IncludeOverride) (hc : c.Behind b) :
    Keeps b (classBody settings start name override) c fun _ _ => True := by
  refine (keeps_expect (by decide) hc).bind fun opening mid₁ h₁ _ => ?_
  have h₁ := h₁.trans hc
  refine (keeps_collect (fun _ hc => keeps_nextMember name hc) h₁).bind fun read mid₂ h₂ hread => ?_
  have h₂ := h₂.trans h₁
  refine keeps_next.bind fun closing mid₃ h₃ _ => ?_
  have h₃ := h₃.trans h₂
  refine (keeps_accept (by decide) h₃).bind fun semi mid₄ h₄ _ => ?_
  have h₄ := h₄.trans h₃
  have hcrowded : ∀ d ∈ (crowded (read.filterMap id)).map fun decl =>
      Diagnostic.about decl.span (.crowdedLine name), b.Blames d := by
    rw [List.forall_mem_map]
    intro decl hdecl
    obtain ⟨m, hm, rfl⟩ := mem_of_mem_crowded hdecl
    obtain ⟨o, ho, rfl⟩ := List.mem_filterMap.mp hm
    exact .place (hread _ ho m rfl) rfl
  cases semi with
  | some semi =>
    exact keeps_reportAll_when hcrowded (fun _ => keeps_freshId.bind fun _ _ _ _ => .pure trivial) _
  | none =>
    refine keeps_cursor.bind fun _ _ _ hcursor => ?_
    obtain ⟨rfl, rfl⟩ := hcursor
    refine (keeps_report (h₄.blames_unexpected _)).bind fun _ _ _ _ => ?_
    exact keeps_reportAll_when hcrowded (fun _ => keeps_freshId.bind fun _ _ _ _ => .pure trivial) _

/-- What an override is read from is a token of the file. -/
theorem keeps_includeOverride (hc : c.Behind b) :
    Keeps b includeOverride c fun override _ => ∀ o ∈ override, o.span.Joins b.rest := by
  refine (keeps_accept (by decide) hc).bind fun t _ _ ht => .pure ?_
  rintro o ho
  obtain ⟨u, hu, rfl⟩ := Option.map_eq_some_iff.mp ho
  exact Span.joins_of_mem (ht u hu)

/-- An include line is complained about as a whole. -/
theorem keeps_reportDangling {override : IncludeOverride} (h : override.span.Joins b.rest) :
    Keeps b (reportDangling override) c fun _ _ => True :=
  keeps_report (.place h rfl)

/-- A qualified forward declaration, whose keyword has been passed, is reported up to the token that
ends its name. -/
theorem keeps_qualifiedForward {keyword : Token} {behind : List Token} (first : Token)
    (hb : keyword :: behind <:+ b.rest) (hpast : c.rest <:+ behind) (hc : c.Behind b) :
    Keeps b (qualifiedForward keyword.span first) c fun _ _ => True := by
  refine (keeps_segments .className hc).bind fun more mid₁ h₁ _ => ?_
  refine keeps_span.bind fun s _ _ hs => ?_
  obtain ⟨rfl, hmid⟩ := hs
  have hsub := (h₁.trans hc).pair_sublist hb (h₁.rest.trans hpast)
  rw [hmid]
  refine (keeps_expect (by decide) (h₁.trans hc)).bind fun semi _ _ _ => ?_
  exact keeps_report (.through hsub rfl)

/-- A class or forward declaration, whose keyword is ahead. -/
theorem keeps_classItem (settings : GrammarSettings) {override : Option IncludeOverride}
    (hoverride : ∀ o ∈ override, o.span.Joins b.rest) (hc : c.Behind b)
    (hkeyword : c.kind = .classKeyword) :
    Keeps b (classItem settings override) c fun _ _ => True := by
  obtain ⟨rest, stop, id⟩ := c
  obtain ⟨keyword, behind, rfl⟩ : ∃ t ts, rest = t :: ts :=
    List.exists_cons_of_ne_nil (Cursor.rest_ne_nil_of_kind hkeyword (by decide))
  refine keeps_next.bind fun t mid₁ h₁ ht => ?_
  obtain ⟨rfl, rfl⟩ := ht
  have h₁ := h₁.trans hc
  refine (keeps_expect (by decide) h₁).bind fun name mid₂ h₂ hname => ?_
  -- `h₂` is still relative to the keyword, as the qualified name is blamed from there on
  have hpast := h₂.rest
  have h₂ := h₂.trans h₁
  refine keeps_kind.bind fun k _ _ hk => ?_
  obtain ⟨-, rfl⟩ := hk
  split
  · exact (keeps_qualifiedForward name hc.rest hpast h₂).bind fun _ _ _ _ => .pure trivial
  · refine (keeps_require (Cursor.blames_token hname rfl)).bind fun _ mid₃ h₃ _ => ?_
    have h₃ := h₃.trans h₂
    refine (keeps_accept (by decide) h₃).bind fun semi mid₄ h₄ _ => ?_
    have h₄ := h₄.trans h₃
    cases semi with
    | some semi =>
      cases override with
      | none =>
        exact (Keeps.pure (Q := fun _ _ => True) trivial).bind fun _ _ _ _ =>
          keeps_freshId.bind fun _ _ _ _ => .pure trivial
      | some o =>
        exact (keeps_reportDangling (hoverride o rfl)).bind fun _ _ _ _ =>
          keeps_freshId.bind fun _ _ _ _ => .pure trivial
    | none =>
      exact (keeps_classBody settings _ name.text override h₄).bind fun _ _ _ _ => .pure trivial

/-! ## Namespaces -/

theorem keeps_closingName (marker : Token) (hc : c.Behind b) :
    Keeps b (closingName marker) c fun _ _ => True := by
  refine keeps_span.bind fun s _ _ hs => ?_
  obtain ⟨-, rfl⟩ := hs
  split
  · exact (keeps_accept (by decide) hc).bind fun _ _ _ _ => .pure trivial
  · exact .pure trivial

/-- A namespace, whose keyword is ahead. -/
theorem keeps_namespaceItem {body : Parser (List Item)} (override : Option IncludeOverride)
    (hbody : ∀ c : Cursor, c.Behind b → Keeps b body c fun _ _ => True) (hc : c.Behind b)
    (hkeyword : c.kind = .namespaceKeyword) :
    Keeps b (namespaceItem body override) c fun _ _ => True := by
  have hstart := hc.current_mem (Cursor.rest_ne_nil_of_kind hkeyword (by decide))
  refine keeps_next.bind fun t mid₁ h₁ ht => ?_
  obtain ⟨rfl, -⟩ := ht
  have h₁ := h₁.trans hc
  refine (keeps_accept (by decide) h₁).bind fun name mid₂ h₂ hname => ?_
  have h₂ := h₂.trans h₁
  have hrequire : Keeps b (name.forM fun t => require (startsLower t.text)
      (.about t.span (.namespaceName t.text))) mid₂ fun _ _ => True := by
    cases name with
    | none => exact .pure trivial
    | some t => exact keeps_require (Cursor.blames_token (hname t rfl) rfl)
  refine hrequire.bind fun _ mid₃ h₃ _ => ?_
  have h₃ := h₃.trans h₂
  refine (keeps_expect (by decide) h₃).bind fun opening mid₄ h₄ _ => ?_
  have h₄ := h₄.trans h₃
  refine (hbody mid₄ h₄).bind fun items mid₅ h₅ _ => ?_
  have h₅ := h₅.trans h₄
  refine keeps_cursor.bind fun _ _ _ hcursor => ?_
  obtain ⟨rfl, rfl⟩ := hcursor
  split
  · exact keeps_fail (Cursor.blames_token hstart rfl)
  · refine keeps_next.bind fun closing mid₆ h₆ _ => ?_
    refine (keeps_closingName closing (h₆.trans h₅)).bind fun _ _ _ _ => ?_
    exact keeps_freshId.bind fun _ _ _ _ => .pure trivial

/-! ## Items -/

/-- An item complains about what is ahead of `b` if the body of a block does. -/
theorem keeps_item (settings : GrammarSettings) {body : Parser (List Item)}
    (hbody : ∀ c : Cursor, c.Behind b → Keeps b body c fun _ _ => True) (hc : c.Behind b) :
    Keeps b (item settings body) c fun _ _ => True := by
  refine (keeps_includeOverride hc).bind fun override mid h hoverride => ?_
  have h := h.trans hc
  refine keeps_kind.bind fun k _ _ hk => ?_
  obtain ⟨rfl, rfl⟩ := hk
  split
  · rename_i hkind
    exact (keeps_namespaceItem override hbody h hkind).bind fun _ _ _ _ => .pure trivial
  · rename_i hkind
    exact keeps_classItem settings hoverride h hkind
  · cases override with
    | none => exact keeps_refuse h
    | some dangling =>
      exact (keeps_reportDangling (hoverride dangling rfl)).bind fun _ _ _ _ => .pure trivial

/-- Giving up an item drops tokens from the front only. -/
theorem skipItem_suffix (depth : Nat) (ts : List Token) : skipItem depth ts <:+ ts := by
  fun_induction skipItem depth ts with
  | case1 | case2 | case3 | case4 | case5 | case6 | case7 => exact List.suffix_refl _
  | case9 => exact List.nil_suffix
  | case10 _ _ _ _ _ ih =>
    -- the `;` behind the last brace goes with it
    exact (ih.trans (List.suffix_cons _ _)).trans (List.suffix_cons _ _)
  | case8 _ _ _ _ ih => exact ih.trans (List.suffix_cons _ _)
  | case11 _ _ _ _ _ ih => exact ih.trans (List.suffix_cons _ _)
  | case12 _ _ _ _ _ ih => exact ih.trans (List.suffix_cons _ _)
  | case13 _ _ _ _ _ _ _ _ _ _ _ _ ih => exact ih.trans (List.suffix_cons _ _)

/-- A token that closes something ends the list where there is something to close. -/
theorem keeps_closing (nested : Bool) (hc : c.Behind b) (hne : c.rest ≠ []) :
    Keeps b (if nested then pure none
      else span >>= fun s => fail (.about s .unmatchedNamespaceEnd) :
        Parser (Option (Option Item))) c fun _ _ => True := by
  split
  · exact .pure trivial
  · refine keeps_span.bind fun s _ _ hs => ?_
    obtain ⟨rfl, -⟩ := hs
    exact keeps_fail (Cursor.blames_token (hc.current_mem hne) rfl)

/-- An item that could not be read is reported, and its tokens are dropped. -/
theorem keeps_nextItem (settings : GrammarSettings) (nested : Bool) {body : Parser (List Item)}
    (hbody : ∀ c : Cursor, c.Behind b → Keeps b body c fun _ _ => True) (hc : c.Behind b) :
    Keeps b (nextItem settings nested body) c fun _ _ => True := by
  refine keeps_kind.bind fun k _ _ hk => ?_
  obtain ⟨rfl, rfl⟩ := hk
  split
  · exact .pure trivial
  · rename_i hkind
    exact keeps_closing nested hc (Cursor.rest_ne_nil_of_kind hkind (by decide))
  · rename_i hkind
    exact keeps_closing nested hc (Cursor.rest_ne_nil_of_kind hkind (by decide))
  · refine (keeps_item settings hbody hc).attempt.bind fun r mid h hr => ?_
    have h := h.trans hc
    cases r with
    | ok read => exact .pure trivial
    | error d =>
      refine keeps_cursor.bind fun _ _ _ hcursor => ?_
      obtain ⟨rfl, rfl⟩ := hcursor
      split
      · exact keeps_fail (hr.2 d rfl)
      · refine (keeps_report (hr.2 d rfl)).bind fun _ _ _ _ => ?_
        exact (keeps_skip (skipItem_suffix 0)).bind fun _ _ _ _ => .pure trivial

/-- However deep namespaces go: the induction is on the bound for it. -/
theorem keeps_itemsWithin (settings : GrammarSettings) (nested : Bool) (ahead : List Token)
    (hc : c.Behind b) : Keeps b (itemsWithin settings nested ahead) c fun _ _ => True := by
  induction ahead generalizing nested c with
  | nil => exact .pure trivial
  | cons t ahead ih =>
    have hstep (c : Cursor) (hc : c.Behind b) :=
      keeps_nextItem settings nested (fun _ hc => ih true hc) hc
    exact (keeps_collect_any hstep hc).bind fun _ _ _ _ => .pure trivial

end Parser

end BindingIdl
