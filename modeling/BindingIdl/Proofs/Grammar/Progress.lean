import BindingIdl.Proofs.Grammar.Parallel

/-!
# Every step takes a token

`Parser.collect` repeats a step on as many tokens as are ahead, which is enough only if no step adds
something without taking a token. Members and items do take one, also those that cannot be read
and are given up: either something was read before the parser was stopped, or recovery drops the
token it was stopped at (`progresses_nextMember`, `progresses_nextItem`).

With that the bound no longer matters, and a repetition is one step and then the repetition again:
`collect_eq`.
-/

namespace BindingIdl

/-- What is answered where some elements and some reports are there already. -/
def Parsed.following {α : Type} (as : List α) (reported : List Diagnostic) (p : Parsed (List α)) :
    Parsed (List α) :=
  ⟨p.outcome.map (as ++ ·), reported ++ p.reported, p.next⟩

theorem Parsed.following_nil {α : Type} (p : Parsed (List α)) : p.following [] [] = p := by
  obtain ⟨outcome, reported, next⟩ := p
  cases outcome <;> rfl

theorem Parsed.following_following {α : Type} (as bs : List α) (ds es : List Diagnostic)
    (p : Parsed (List α)) :
    (p.following bs es).following as ds = p.following (as ++ bs) (ds ++ es) := by
  obtain ⟨outcome, reported, next⟩ := p
  cases outcome <;> simp [following, Except.map]

/-- The errors that were reported first come in front, also of what stops the parser. -/
theorem Parsed.errors_following {α : Type} (as : List α) (ds : List Diagnostic)
    (p : Parsed (List α)) : (p.following as ds).errors = ds ++ p.errors := by
  obtain ⟨outcome, reported, next⟩ := p
  cases outcome <;> simp [following, errors, Except.map]

namespace Parser

variable {α β : Type} {c : Cursor}

/-! ## Repetition without a bound -/

/-- Where the step has something to add, it leaves fewer than `n` tokens. -/
def AddsBelow (n : Nat) (step : Parser (Option α)) (c : Cursor) : Prop :=
  ∀ a, (step c).outcome = .ok (some a) → (step c).next.rest.length < n

/-- A step takes a token when it has something to add. -/
def Progresses (step : Parser (Option α)) : Prop := ∀ c, AddsBelow c.rest.length step c

/-- Two chains agree when they do behind every answer of what they share. -/
theorem bind_congr {p : Parser α} {f g : α → Parser β}
    (h : ∀ a, (p c).outcome = .ok a → f a (p c).next = g a (p c).next) :
    (p >>= f) c = (p >>= g) c := by
  rcases hp : p c with ⟨outcome, reported, mid⟩
  rw [hp] at h
  cases outcome with
  | error d => rw [bind_of_error f hp, bind_of_error g hp]
  | ok a => rw [bind_of_ok f hp, bind_of_ok g hp, h a rfl]

/-- Behind a step that only looks. -/
theorem AddsBelow.after {n : Nat} {p : Parser α} {f : α → Parser (Option β)} {a : α}
    (hp : Reads p c a c) (hf : AddsBelow n (f a) c) : AddsBelow n (p >>= f) c := by
  rwa [AddsBelow, bind_of_ok f hp]

/-- Two bounds that are both large enough make no difference. -/
theorem collectWithin_congr {step : Parser (Option α)} (hstep : Progresses step)
    (ahead ahead' : List Token) (enough : c.rest.length ≤ ahead.length)
    (enough' : c.rest.length ≤ ahead'.length) :
    collectWithin step ahead c = collectWithin step ahead' c := by
  induction ahead generalizing ahead' c with
  | nil =>
    cases ahead' with
    | nil => rfl
    | cons t ahead' =>
      -- no token is left that a step could take
      refine bind_congr fun o ho => ?_
      cases o with
      | none => rfl
      | some a =>
        have := hstep c a ho
        simp only [List.length_nil] at enough
        omega
  | cons t ahead ih =>
    cases ahead' with
    | nil =>
      refine bind_congr fun o ho => ?_
      cases o with
      | none => rfl
      | some a =>
        have := hstep c a ho
        simp only [List.length_nil] at enough'
        omega
    | cons t' ahead' =>
      refine bind_congr fun o ho => ?_
      cases o with
      | none => rfl
      | some a =>
        have := hstep c a ho
        simp only [List.length_cons] at enough enough'
        have hrest := ih (c := (step c).next) ahead' (by omega) (by omega)
        simp only [Bind.bind, hrest]

/-- One step, and what comes behind it. -/
theorem collect_eq {step : Parser (Option α)} (hstep : Progresses step) (c : Cursor) :
    collect step c = (do
      match ← step with
      | none => return []
      | some a => return a :: (← collect step) : Parser (List α)) c := by
  have hbound : collect step c = collectWithin step (c.stop :: c.rest) c :=
    collectWithin_congr hstep _ _ (Nat.le_refl _) (Nat.le_succ _)
  rw [hbound]
  refine bind_congr fun o ho => ?_
  cases o with
  | none => rfl
  | some a =>
    have := hstep c a ho
    have hrest : collectWithin step c.rest (step c).next = collect step (step c).next :=
      collectWithin_congr hstep _ _ (by omega) (Nat.le_refl _)
    simp only [Bind.bind, hrest]

/-- A step that adds something, then the repetition from where it comes to. -/
theorem collect_of_some {step : Parser (Option α)} (hstep : Progresses step) {a : α}
    {reported : List Diagnostic} {mid : Cursor} (h : step c = ⟨.ok (some a), reported, mid⟩) :
    collect step c = (collect step mid).following [a] reported := by
  rw [collect_eq hstep, bind_of_ok _ h]
  rcases hrest : collect step mid with ⟨outcome, others, next⟩
  cases outcome with
  | error d =>
    have hrun := bind_of_error (fun as => pure (a :: as)) hrest
    simp only [hrun]
    rfl
  | ok as =>
    have hrun := bind_of_ok (fun as => pure (a :: as)) hrest
    simp only [hrun, pure_apply, List.append_nil]
    rfl

/-- A step that adds nothing ends the repetition, with what it reports. -/
theorem collect_of_none {step : Parser (Option α)} (hstep : Progresses step)
    {reported : List Diagnostic} {mid : Cursor} (h : step c = ⟨.ok none, reported, mid⟩) :
    collect step c = ⟨.ok [], reported, mid⟩ := by
  rw [collect_eq hstep, bind_of_ok _ h]
  simp only [pure_apply, List.append_nil]

/-- A step that is stopped stops the repetition. -/
theorem collect_of_error {step : Parser (Option α)} (hstep : Progresses step) {d : Diagnostic}
    {reported : List Diagnostic} {mid : Cursor} (h : step c = ⟨.error d, reported, mid⟩) :
    collect step c = ⟨.error d, reported, mid⟩ := by
  rw [collect_eq hstep, bind_of_error _ h]

/-! ## Taking tokens -/

/-- Whatever comes of it, the parser does not go back. -/
def Shrinks (p : Parser α) : Prop := ∀ c, (p c).next.rest.length ≤ c.rest.length

/-- Where the parser answers, it has taken a token. -/
def Consumes (p : Parser α) : Prop :=
  ∀ c a, (p c).outcome = .ok a → (p c).next.rest.length < c.rest.length

/-- A parser that matches itself does not go back. -/
theorem shrinks_of_matches (settings : GrammarSettings) {p p' : Parser α} {f : α → α}
    (h : ∀ c, Matches (.further settings 0) p p' f c) : Shrinks p :=
  fun c => (h c).shorter

/-- A chain is stopped with its first part, or goes where its second part goes. -/
theorem next_bind_cases (p : Parser α) (f : α → Parser β) (c : Cursor) :
    (∃ d, (p c).outcome = .error d ∧ ((p >>= f) c).outcome = .error d ∧
      ((p >>= f) c).next = (p c).next) ∨
    ∃ a, (p c).outcome = .ok a ∧ ((p >>= f) c).outcome = (f a (p c).next).outcome ∧
      ((p >>= f) c).next = (f a (p c).next).next := by
  rcases hp : p c with ⟨outcome, reported, mid⟩
  cases outcome with
  | error d => exact .inl ⟨d, rfl, by rw [bind_of_error f hp], by rw [bind_of_error f hp]⟩
  | ok a => exact .inr ⟨a, rfl, by rw [bind_of_ok f hp], by rw [bind_of_ok f hp]⟩

theorem shrinks_next : Shrinks next := fun c => c.behind_advance.rest.length_le

theorem shrinks_cursor : Shrinks cursor := fun _ => Nat.le_refl _

theorem shrinks_kind : Shrinks kind := fun _ => Nat.le_refl _

theorem shrinks_span : Shrinks span := fun _ => Nat.le_refl _

theorem shrinks_freshId : Shrinks freshId := fun _ => Nat.le_refl _

theorem shrinks_accept (k : TokenKind) : Shrinks (accept k) :=
  shrinks_of_matches default fun _ => matches_accept

theorem shrinks_expect (k : TokenKind) (expected : Expectation) : Shrinks (expect k expected) :=
  shrinks_of_matches default fun _ => matches_expect

theorem shrinks_pure (a : α) : Shrinks (pure a) := fun _ => Nat.le_refl _

theorem Shrinks.bind {p : Parser α} {f : α → Parser β} (hp : Shrinks p)
    (hf : ∀ a, Shrinks (f a)) : Shrinks (p >>= f) := by
  intro c
  obtain ⟨d, -, -, hnext⟩ | ⟨a, -, -, hnext⟩ := next_bind_cases p f c
  · rw [hnext]
    exact hp c
  · rw [hnext]
    exact (hf a _).trans (hp c)

/-- A chain takes a token if its second part does. -/
theorem Shrinks.bind_consumes {p : Parser α} {f : α → Parser β} (hp : Shrinks p)
    (hf : ∀ a, Consumes (f a)) : Consumes (p >>= f) := by
  intro c b hb
  obtain ⟨d, -, hstopped, -⟩ | ⟨a, -, houtcome, hnext⟩ := next_bind_cases p f c
  · rw [hstopped] at hb
    cases hb
  · rw [hnext]
    rw [houtcome] at hb
    exact (hf a _ b hb).trans_le (hp c)

/-- A chain takes a token if its first part does, and the second does not go back. -/
theorem Consumes.bind {p : Parser α} {f : α → Parser β} (hp : Consumes p)
    (hf : ∀ a, Shrinks (f a)) : Consumes (p >>= f) := by
  intro c b hb
  obtain ⟨d, -, hstopped, -⟩ | ⟨a, ha, -, hnext⟩ := next_bind_cases p f c
  · rw [hstopped] at hb
    cases hb
  · rw [hnext]
    exact (hf a _).trans_lt (hp c a ha)

/-- At this cursor the parser takes a token, also if it is stopped later. -/
def Takes (p : Parser α) (c : Cursor) : Prop := (p c).next.rest.length < c.rest.length

theorem Takes.bind {p : Parser α} {f : α → Parser β} (hp : Takes p c) (hf : ∀ a, Shrinks (f a)) :
    Takes (p >>= f) c := by
  obtain ⟨d, -, -, hnext⟩ | ⟨a, -, -, hnext⟩ := next_bind_cases p f c
  · rwa [Takes, hnext]
  · rw [Takes, hnext]
    exact (hf a _).trans_lt hp

/-- Behind a step that only looks. -/
theorem Takes.after {p : Parser α} {f : α → Parser β} {a : α} (hp : Reads p c a c)
    (hf : Takes (f a) c) : Takes (p >>= f) c := by
  rwa [Takes, bind_of_ok f hp]

/-- At this cursor the parser is stopped and has done nothing. -/
def Refuses (p : Parser α) (c : Cursor) : Prop := ∃ d, p c = ⟨.error d, [], c⟩

/-- A look at what is ahead does nothing by itself. -/
theorem Refuses.after {p : Parser α} {f : α → Parser β} {a : α} (hp : Reads p c a c)
    (hf : Refuses (f a) c) : Refuses (p >>= f) c := by
  obtain ⟨d, hd⟩ := hf
  exact ⟨d, by rw [bind_of_ok f hp, hd, List.nil_append]⟩

/-- Only the end is not taken by a step. -/
theorem length_advance {k : TokenKind} (h : c.kind = k) (hk : k ≠ .endOfFile) :
    c.advance.rest.length < c.rest.length := by
  have := (Cursor.ahead_advance h hk).1.length
  simp only [List.length_singleton] at this
  omega

theorem takes_next {k : TokenKind} (h : c.kind = k) (hk : k ≠ .endOfFile) : Takes next c :=
  length_advance h hk

theorem consumes_expect {k : TokenKind} (hk : k ≠ .endOfFile) (expected : Expectation) :
    Consumes (expect k expected) := by
  intro c t ht
  by_cases h : c.kind = k
  · simpa [expect, h] using length_advance h hk
  · simp [expect, h] at ht

/-- A step that takes a token wherever it answers does so where it adds something. -/
theorem Consumes.progresses {step : Parser (Option α)} (h : Consumes step) : Progresses step :=
  fun c a ha => h c (some a) ha

/-- A segment is added with its `::`. -/
theorem progresses_nextSegment (expected : Expectation) : Progresses (nextSegment expected) := by
  intro c
  by_cases h : c.kind = .doubleColon
  · have htakes : Takes (accept .doubleColon) c := by
      rw [Takes, accept, if_pos h]
      exact length_advance h (by decide)
    have htakes : Takes (nextSegment expected) c := by
      refine htakes.bind fun o => ?_
      cases o with
      | none => exact shrinks_pure none
      | some colons => exact (shrinks_expect _ _).bind fun name => shrinks_pure _
    exact fun name _ => htakes
  · apply AddsBelow.after (Reads.accept_none h)
    intro a ha
    cases ha

/-! ## Members -/

theorem consumes_parameter (owner member : String) : Consumes (parameter owner member) := by
  have shrinks_typeExpr := shrinks_of_matches default fun _ => matches_typeExpr
  refine shrinks_typeExpr.bind_consumes fun type => ?_
  refine (consumes_expect (by decide) _).bind fun name => shrinks_kind.bind fun k => ?_
  split
  · exact shrinks_span.bind fun s => fun _ => Nat.le_refl _
  · exact shrinks_freshId.bind fun id => shrinks_pure _

/-- A parameter is added with its type and its name. -/
theorem progresses_nextParameter (owner member : String) :
    Progresses (nextParameter owner member) := by
  refine fun c => .after .kind ?_
  split
  · nofun
  · have hconsumes : Consumes (parameter owner member >>= fun param => kind >>= fun k =>
        if k ≠ .closeParen then expect .comma .parameterSeparator >>= fun _ => pure (some param)
        else pure (some param)) := by
      refine (consumes_parameter owner member).bind fun param => shrinks_kind.bind fun k => ?_
      split
      · exact (shrinks_expect _ _).bind fun comma => shrinks_pure _
      · exact shrinks_pure _
    exact hconsumes.progresses c

theorem shrinks_parameters (owner member : String) : Shrinks (parameters owner member) :=
  shrinks_of_matches default fun _ => matches_parameters owner member

theorem consumes_constructorDecl (owner : String) (start : Span) :
    Consumes (constructorDecl owner start) := by
  refine shrinks_next.bind_consumes fun name => ?_
  refine (shrinks_parameters owner owner).bind_consumes fun params => ?_
  refine (consumes_expect (by decide) _).bind fun semi => ?_
  exact shrinks_freshId.bind fun id => shrinks_pure _

theorem consumes_methodDecl (owner : String) (start : Span) (isStatic : Bool) :
    Consumes (methodDecl owner start isStatic) := by
  have shrinks_typeExpr := shrinks_of_matches default fun _ => matches_typeExpr
  have shrinks_requireMethodName (name : Token) :=
    shrinks_of_matches default fun _ => matches_requireMethodName owner isStatic name
  have shrinks_constMark (name : String) :=
    shrinks_of_matches default fun _ => matches_constMark owner isStatic name
  refine shrinks_typeExpr.bind_consumes fun returns => ?_
  refine (shrinks_expect _ _).bind_consumes fun name => ?_
  refine (shrinks_requireMethodName name).bind_consumes fun _ => ?_
  refine (shrinks_parameters owner name.text).bind_consumes fun params => ?_
  refine (shrinks_constMark name.text).bind_consumes fun isConst => ?_
  refine (consumes_expect (by decide) _).bind fun semi => ?_
  exact shrinks_freshId.bind fun id => shrinks_pure _

theorem consumes_member (owner : String) : Consumes (member owner) := by
  refine shrinks_span.bind_consumes fun start => ?_
  refine (shrinks_accept _).bind_consumes fun o => ?_
  cases o with
  | some mark => exact consumes_methodDecl owner start true
  | none =>
    refine shrinks_cursor.bind_consumes fun here => ?_
    split
    · exact consumes_constructorDecl owner start
    · exact consumes_methodDecl owner start false

/-- Unless the body is over, recovery drops the token it starts at. -/
theorem length_skipMember {t : Token} {ts : List Token} (heof : t.kind ≠ .endOfFile)
    (hend : t.kind ≠ .namespaceEnd) (hbrace : t.kind ≠ .closeBrace) :
    (skipMember (t :: ts)).length ≤ ts.length := by
  rw [skipMember]
  split
  · exact absurd ‹_› heof
  · exact absurd ‹_› hend
  · exact absurd ‹_› hbrace
  · exact Nat.le_refl _
  · exact (skipMember_suffix ts).length_le

/-- What is tried answers, or it is given up. -/
theorem AddsBelow.attempt {n : Nat} {p : Parser α} {f : Except Diagnostic α → Parser (Option β)}
    (ok : ∀ a, (p c).outcome = .ok a → (p c).next.rest.length < n ∧ Shrinks (f (.ok a)))
    (error : ∀ d, (p c).outcome = .error d → AddsBelow n (f (.error d)) (p c).next) :
    AddsBelow n (Parser.attempt p >>= f) c := by
  have hrun : ((Parser.attempt p >>= f) c).outcome = (f (p c).outcome (p c).next).outcome ∧
      ((Parser.attempt p >>= f) c).next = (f (p c).outcome (p c).next).next := ⟨rfl, rfl⟩
  rw [AddsBelow, hrun.1, hrun.2]
  cases hp : (p c).outcome with
  | ok a => exact fun _ _ => ((ok a hp).2 _).trans_lt (ok a hp).1
  | error d => exact error d hp

/-- Recovery from a cursor that was come to takes a token in any case, if it takes one where nothing
was read. -/
theorem length_recover {mid : Cursor} {drop : List Token → List Token}
    (hsuffix : ∀ ts, drop ts <:+ ts) (hmid : mid.Behind c) (hne : c.rest ≠ [])
    (hdrop : (drop c.rest).length < c.rest.length) : (drop mid.rest).length < c.rest.length := by
  obtain ⟨t, ts, hrest⟩ := List.exists_cons_of_ne_nil hne
  have hbehind := hmid.rest
  rw [hrest] at hbehind hdrop ⊢
  obtain hsame | hbehind := List.suffix_cons_iff.mp hbehind
  · rwa [hsame]
  · exact ((hsuffix _).length_le.trans hbehind.length_le).trans_lt (Nat.lt_succ_self _)

/-- A member that is given up either took a token before it was stopped, or recovery drops the token
it was stopped at. -/
theorem progresses_nextMember (owner : String) : Progresses (nextMember owner) := by
  refine fun c => .after .kind ?_
  split
  · nofun
  · nofun
  · nofun
  · rename_i hbrace heof hend
    have hne := Cursor.rest_ne_nil_of_kind (c := c) rfl heof
    refine .attempt (fun read hread => ⟨consumes_member owner c read hread, shrinks_pure _⟩) ?_
    refine fun d _ _ _ => length_recover skipMember_suffix
      (keeps_member owner (.refl c) hne).behind hne ?_
    obtain ⟨rest, stop, n⟩ := c
    obtain ⟨t, ts, rfl⟩ := List.exists_cons_of_ne_nil hne
    exact Nat.lt_succ_of_le (length_skipMember heof hend hbrace)

/-! ## Items -/

/-- The kinds of the tokens that an item can start with. -/
def startKinds : List TokenKind := [.includeLine, .namespaceKeyword, .classKeyword]

/-- Unless something starts or is over there, recovery drops the token it starts at. -/
theorem length_skipItem {t : Token} {ts : List Token} (hstart : t.kind ∉ startKinds)
    (heof : t.kind ≠ .endOfFile) (hend : t.kind ≠ .namespaceEnd) (hbrace : t.kind ≠ .closeBrace) :
    (skipItem 0 (t :: ts)).length ≤ ts.length := by
  have hskip (depth : Nat) := (skipItem_suffix depth ts).length_le
  by_cases hopen : t.kind = .openBrace
  · rw [skipItem.eq_8 t ts 0 hopen]
    exact hskip 1
  · simp only [startKinds, List.mem_cons, List.not_mem_nil, or_false, not_or] at hstart
    rw [skipItem.eq_12] <;> simp_all

/-- What is behind the keyword of a namespace takes more tokens or none. -/
theorem namespaceItem_behind {body : Parser (List Item)} (hbody : Shrinks body)
    (override : Option IncludeOverride) :
    ∃ q, namespaceItem body override = next >>= q ∧ ∀ keyword, Shrinks (q keyword) := by
  refine ⟨_, rfl, fun keyword => ?_⟩
  refine (shrinks_accept _).bind fun name => ?_
  have hrequire : Shrinks (name.forM fun t =>
      require (startsLower t.text) (.about t.span (.namespaceName t.text))) := by
    cases name with
    | none => exact shrinks_pure ()
    | some t => exact shrinks_of_matches default fun _ => matches_require rfl rfl
  refine hrequire.bind fun _ => (shrinks_expect _ _).bind fun opening => hbody.bind fun items => ?_
  refine shrinks_cursor.bind fun here => ?_
  split
  · exact fun _ => Nat.le_refl _
  · refine shrinks_next.bind fun closing => ?_
    refine (shrinks_of_matches default fun _ => matches_closingName closing).bind fun _ => ?_
    exact shrinks_freshId.bind fun id => shrinks_pure _

/-- A class is read behind its keyword, and from there on nothing goes back. -/
theorem classItem_behind (settings : GrammarSettings) (override : Option IncludeOverride) :
    ∃ q, classItem settings override = next >>= q ∧ ∀ keyword, Shrinks (q keyword) := by
  refine ⟨_, rfl, fun keyword => ?_⟩
  refine (shrinks_expect _ _).bind fun name => shrinks_kind.bind fun k => ?_
  split
  · exact (shrinks_of_matches default fun _ => matches_qualifiedForward _ name).bind fun _ =>
      shrinks_pure _
  · refine (shrinks_of_matches default fun _ => matches_require rfl rfl).bind fun _ => ?_
    refine (shrinks_accept _).bind fun semi => ?_
    cases semi with
    | none =>
      exact (shrinks_of_matches settings fun _ => matches_classBody _ name.text override).bind
        fun _ => shrinks_pure _
    | some semi =>
      have hdangling : Shrinks (override.forM reportDangling) := by
        cases override with
        | none => exact shrinks_pure ()
        | some o => exact shrinks_of_matches default fun _ => matches_reportDangling o
      exact hdangling.bind fun _ => shrinks_freshId.bind fun id => shrinks_pure _

/-- An item is read behind the include line in front of it, should there be one. -/
theorem item_behind (settings : GrammarSettings) {body : Parser (List Item)}
    (hbody : Shrinks body) :
    ∃ q, item settings body = includeOverride >>= q ∧ ∀ override, Shrinks (q override) := by
  refine ⟨_, rfl, fun override => shrinks_kind.bind fun k => ?_⟩
  obtain ⟨q, hq, hbehind⟩ := namespaceItem_behind hbody override
  obtain ⟨q', hq', hbehind'⟩ := classItem_behind settings override
  split
  · rw [hq]
    exact (shrinks_next.bind hbehind).bind fun _ => shrinks_pure _
  · rw [hq']
    exact shrinks_next.bind hbehind'
  · cases override with
    | none => exact fun _ => Nat.le_refl _
    | some dangling =>
      exact (shrinks_of_matches default fun _ => matches_reportDangling dangling).bind fun _ =>
        shrinks_pure _

/-- Where something starts, the token that starts it is taken. -/
theorem takes_item (settings : GrammarSettings) {body : Parser (List Item)} (hbody : Shrinks body)
    (h : c.kind ∈ startKinds) : Takes (item settings body) c := by
  by_cases hinclude : c.kind = .includeLine
  · obtain ⟨q, hq, hbehind⟩ := item_behind settings hbody
    have hread : Reads includeOverride c (some _) c.advance :=
      Reads.bind (reads_accept_iff.mpr (.inl ⟨hinclude, rfl, rfl⟩)) .pure
    rw [hq]
    refine Takes.bind ?_ hbehind
    rw [Takes, hread]
    exact length_advance hinclude (by decide)
  · have hread : Reads includeOverride c none c := (Reads.accept_none hinclude).bind .pure
    refine .after hread (.after .kind ?_)
    obtain ⟨q, hq, hbehind⟩ := namespaceItem_behind hbody none
    obtain ⟨q', hq', hbehind'⟩ := classItem_behind settings none
    split
    · rename_i hkind
      rw [hq]
      exact ((takes_next hkind (by decide)).bind hbehind).bind fun _ => shrinks_pure _
    · rename_i hkind
      rw [hq']
      exact (takes_next hkind (by decide)).bind hbehind'
    · rename_i hnamespace hclass
      simp only [startKinds, List.mem_cons, List.not_mem_nil, or_false] at h
      exact (h.elim hinclude fun h => h.elim hnamespace hclass).elim

/-- Elsewhere nothing is read. -/
theorem refuses_item (settings : GrammarSettings) (body : Parser (List Item))
    (h : c.kind ∉ startKinds) : Refuses (item settings body) c := by
  simp only [startKinds, List.mem_cons, List.not_mem_nil, or_false, not_or] at h
  have hread : Reads includeOverride c none c := (Reads.accept_none h.1).bind .pure
  refine .after hread (.after .kind ?_)
  split
  · exact absurd ‹_› h.2.1
  · exact absurd ‹_› h.2.2
  · exact ⟨_, rfl⟩

/-- As for members, with the recovery of items. -/
theorem progresses_nextItem (settings : GrammarSettings) (nested : Bool)
    {body : Parser (List Item)} (hbody : Shrinks body) :
    Progresses (nextItem settings nested body) := by
  refine fun c => .after .kind ?_
  have hclosing : AddsBelow c.rest.length (if nested then pure none
      else span >>= fun s => fail (.about s .unmatchedNamespaceEnd) :
        Parser (Option (Option Item))) c := by
    cases nested <;> nofun
  split
  · nofun
  · exact hclosing
  · exact hclosing
  · rename_i heof hend hbrace
    have hne := Cursor.rest_ne_nil_of_kind (c := c) rfl heof
    by_cases hstart : c.kind ∈ startKinds
    · -- an item took its keyword, and the recovery does not go back
      have htakes := takes_item settings hbody hstart
      refine .attempt (fun read _ => ⟨htakes, shrinks_pure _⟩) fun d _ => .after .cursor ?_
      split
      · nofun
      · exact fun _ _ => (skipItem_suffix 0 _).length_le.trans_lt htakes
    · -- nothing was taken, so it is the recovery that drops the token
      obtain ⟨d, hd⟩ := refuses_item settings body hstart
      refine .attempt (fun read hread => by rw [hd] at hread; cases hread) fun d _ => ?_
      rw [hd]
      refine .after .cursor ?_
      split
      · nofun
      · obtain ⟨rest, stop, n⟩ := c
        obtain ⟨t, ts, rfl⟩ := List.exists_cons_of_ne_nil hne
        exact fun _ _ => Nat.lt_succ_of_le (length_skipItem hstart heof hend hbrace)

/-- A list of items does not go back, whatever bounds its depth. -/
theorem shrinks_itemsWithin (settings : GrammarSettings) (nested : Bool) (ahead : List Token) :
    Shrinks (itemsWithin settings nested ahead) :=
  fun c => (keeps_itemsWithin settings nested ahead (.refl c)).behind.rest.length_le

end Parser

end BindingIdl
