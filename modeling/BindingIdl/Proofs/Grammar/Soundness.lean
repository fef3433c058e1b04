import BindingIdl.Proofs.Grammar.Derivation
import BindingIdl.Proofs.Grammar.FileEnd

/-!
# What is read is derived

A clean reading takes exactly the tokens of a construct: `isType_of_reads`, `isMember_of_reads`,
`isItems_of_reads` and the lemmas between them, each named for what it derives. No token is passed
over, because every step of a clean reading takes the tokens that its production has.
-/

open BindingIdl.Parser

namespace BindingIdl.Grammar

variable {c next : Cursor}

theorem current_of_ahead {t : Token} {ts : List Token} (h : c.Ahead (t :: ts) next) :
    c.current = t := by
  rw [Cursor.current, h]
  rfl

/-- A span is made of those of the first and the last token. -/
theorem spanOf_eq_cover {ts : List Token} {t u : Token} (first : ts.head? = some t)
    (last : ts.getLast? = some u) : spanOf ts = t.span.cover u.span := by
  cases ts with
  | nil => simp at first
  | cons t' ts =>
    obtain rfl : t' = t := by simpa using first
    rw [List.getLast?_cons, ← List.getLastD_eq_getLast?, Option.some.injEq] at last
    rw [spanOf, last]

/-! ## Names and types -/

/-- Behind a `::` there has to be a name; without a `::` the loop is over. -/
theorem reads_nextSegment_iff {e : Expectation} {o : Option Token} :
    Reads (nextSegment e) c o next ↔
      (c.kind ≠ .doubleColon ∧ o = none ∧ next = c) ∨
      (c.kind = .doubleColon ∧ c.advance.kind = .identifier ∧ o = some c.advance.current ∧
        next = c.advance.advance) := by
  simp only [nextSegment, reads_bind_iff, reads_accept_iff]
  constructor
  · rintro ⟨_, mid, ⟨h, rfl, rfl⟩ | ⟨h, rfl, rfl⟩, h'⟩
    · obtain ⟨t, mid, h₁, h₂⟩ := reads_bind_iff.mp h'
      obtain ⟨hk, rfl, rfl⟩ := reads_expect_iff.mp h₁
      obtain ⟨rfl, rfl⟩ := reads_pure_iff.mp h₂
      exact .inr ⟨h, hk, rfl, rfl⟩
    · obtain ⟨rfl, rfl⟩ := reads_pure_iff.mp h'
      exact .inl ⟨h, rfl, rfl⟩
  · rintro (⟨h, rfl, rfl⟩ | ⟨h, hk, rfl, rfl⟩)
    · exact ⟨none, _, .inr ⟨h, rfl, rfl⟩, reads_pure_iff.mpr ⟨rfl, rfl⟩⟩
    · exact ⟨_, _, .inl ⟨h, rfl, rfl⟩,
        (reads_expect_iff.mpr ⟨hk, rfl, rfl⟩).bind (reads_pure_iff.mpr ⟨rfl, rfl⟩)⟩

/-- A segment is two tokens. -/
theorem ahead_of_reads_nextSegment {e : Expectation} {t : Token}
    (h : Reads (nextSegment e) c (some t) next) :
    ∃ colons, c.Ahead [colons, t] next ∧ colons.kind = .doubleColon ∧ t.kind = .identifier ∧
      next.nextId = c.nextId := by
  obtain ⟨-, none_eq, -⟩ | ⟨hk, hk', same, rfl⟩ := reads_nextSegment_iff.mp h
  · cases none_eq
  · obtain ⟨ahead, hcolons⟩ := Cursor.ahead_advance hk (by decide)
    obtain ⟨ahead', hsegment⟩ := Cursor.ahead_advance hk' (by decide)
    cases same
    exact ⟨c.current, ahead.trans ahead', hcolons, hsegment, rfl⟩

/-- Every step takes a token, so the loop runs as long as there are segments. -/
theorem reads_segments_iff {e : Expectation} {more : List Token} :
    Reads (collect (nextSegment e)) c more next ↔ Collects (nextSegment e) c more next := by
  refine reads_collect_iff (fun _ => True) (fun c t next _ h => ⟨?_, trivial⟩) trivial
  obtain ⟨colons, ahead, -⟩ := ahead_of_reads_nextSegment h
  have := ahead.length
  simp only [List.length_cons, List.length_nil] at this
  omega

/-- The last segment is the name, those in front of it are namespaces. -/
theorem nameOf_cons (first t : Token) (more : List Token) :
    nameOf first (t :: more) =
      ⟨first.text :: (nameOf t more).namespaces, (nameOf t more).name⟩ := by
  cases h : more.getLast? with
  | none =>
    obtain rfl := List.getLast?_eq_none_iff.mp h
    rfl
  | some last =>
    obtain ⟨init, rfl⟩ := List.getLast?_eq_some_iff.mp h
    simp [nameOf, ← List.cons_append, -List.cons_append_fun]

/-- The segments behind a first identifier complete a name. -/
theorem isName_of_collects {e : Expectation} {more : List Token}
    (h : Collects (nextSegment e) c more next) (first : Token) (hfirst : first.kind = .identifier) :
    ∃ ts, c.Ahead ts next ∧ next.nextId = c.nextId ∧ IsName (first :: ts) (nameOf first more) ∧
      ts.getLastD first = more.getLastD first := by
  induction h generalizing first with
  | stop last =>
    obtain ⟨-, -, rfl⟩ | ⟨-, -, h, -⟩ := reads_nextSegment_iff.mp last
    · exact ⟨[], .refl _, rfl, .bare hfirst, rfl⟩
    · cases h
  | @more c mid next t more one _ ih =>
    obtain ⟨colons, ahead, hcolons, ht, same⟩ := ahead_of_reads_nextSegment one
    obtain ⟨ts, ahead', same', hname, hlast⟩ := ih t ht
    refine ⟨colons :: t :: ts, ahead.trans ahead', same'.trans same, ?_, ?_⟩
    · rw [nameOf_cons]
      exact .qualified hfirst hcolons hname
    · rw [List.getLastD_cons, List.getLastD_cons, List.getLastD_cons, hlast]

/-- A qualified name is read from the tokens of one, and no id is drawn. -/
theorem isName_of_reads {e : Expectation} {name : QualifiedName} {last : Span}
    (h : Reads (qualifiedName e) c (name, last) next) :
    ∃ ts t, c.Ahead ts next ∧ next.nextId = c.nextId ∧ IsName ts name ∧ ts.getLast? = some t ∧
      last = t.span := by
  obtain ⟨first, mid, h₁, h⟩ := reads_bind_iff.mp h
  obtain ⟨more, mid', h₂, h⟩ := reads_bind_iff.mp h
  obtain ⟨same, rfl⟩ := reads_pure_iff.mp h
  obtain ⟨rfl, rfl⟩ := Prod.mk.inj same
  obtain ⟨hk, rfl, rfl⟩ := reads_expect_iff.mp h₁
  obtain ⟨ahead, hfirst⟩ := Cursor.ahead_advance hk (by decide)
  obtain ⟨ts, ahead', same', hname, hlast⟩ :=
    isName_of_collects (reads_segments_iff.mp h₂) c.current hfirst
  refine ⟨c.current :: ts, _, ahead.trans ahead', same', hname, ?_, rfl⟩
  rw [← hlast, List.getLast?_cons, List.getLastD_eq_getLast?]

/-- A type begins with its name, or with a wrapper around it, which has to be called
`shared_ptr`. -/
theorem isTypeHead_of_reads {head : TypeHead} (h : Reads typeHead c head next) :
    ∃ ts t, c.Ahead ts next ∧ next.nextId = c.nextId ∧ IsTypeHead ts head.name head.wrapper ∧
      ts.getLast? = some t ∧ head.last = t.span := by
  obtain ⟨⟨name, last⟩, mid, h₁, h⟩ := reads_bind_iff.mp h
  obtain ⟨ts, t, ahead, same, hname, hlast, rfl⟩ := isName_of_reads h₁
  obtain ⟨k, mid', h₂, h⟩ := reads_bind_iff.mp h
  obtain ⟨rfl, rfl⟩ := reads_kind_iff.mp h₂
  dsimp only at h
  split at h
  · obtain ⟨rfl, rfl⟩ := reads_pure_iff.mp h
    exact ⟨ts, t, ahead, same, .plain hname, hlast, rfl⟩
  · rename_i hless
    split at h
    · exact absurd h not_reads_refuse
    · rename_i hpointer
      obtain ⟨less, mid₁, h₁, h⟩ := reads_bind_iff.mp h
      obtain ⟨⟨inner, last⟩, mid₂, h₂, h⟩ := reads_bind_iff.mp h
      obtain ⟨greater, mid₃, h₃, h⟩ := reads_bind_iff.mp h
      obtain ⟨rfl, rfl⟩ := reads_pure_iff.mp h
      obtain ⟨rfl, rfl⟩ := reads_next_iff.mp h₁
      obtain ⟨us, u, ahead', same', hinner, -, -⟩ := isName_of_reads h₂
      obtain ⟨hk, rfl, rfl⟩ := reads_expect_iff.mp h₃
      obtain ⟨aheadLess, hless'⟩ := Cursor.ahead_advance (not_not.mp hless) (by decide)
      obtain ⟨aheadGreater, hgreater⟩ := Cursor.ahead_advance hk (by decide)
      refine ⟨_, mid₂.current, ?_, same'.trans same,
        .shared hname (not_not.mp hpointer) hless' hinner hgreater, ?_, rfl⟩
      · have := ahead.trans (aheadLess.trans (ahead'.trans aheadGreater))
        simpa using this
      · simp [List.getLast?_cons]

theorem isIndirection_of_reads {i : Indirection} {mark : Option Token}
    (h : Reads indirection c (i, mark) next) :
    c.Ahead mark.toList next ∧ next.nextId = c.nextId ∧ IsIndirection mark.toList i := by
  obtain ⟨o, mid, hamp, hrest⟩ := reads_bind_iff.mp h
  obtain ⟨hk, rfl, rfl⟩ | ⟨-, rfl, rfl⟩ := reads_accept_iff.mp hamp
  · obtain ⟨same, rfl⟩ := reads_pure_iff.mp hrest
    obtain ⟨rfl, rfl⟩ := Prod.mk.inj same
    obtain ⟨ahead, hmark⟩ := Cursor.ahead_advance hk (by decide)
    exact ⟨ahead, rfl, .reference hmark⟩
  · obtain ⟨o, mid', hstar, hrest'⟩ := reads_bind_iff.mp hrest
    obtain ⟨hk, rfl, rfl⟩ | ⟨-, rfl, rfl⟩ := reads_accept_iff.mp hstar
    · obtain ⟨same, rfl⟩ := reads_pure_iff.mp hrest'
      obtain ⟨rfl, rfl⟩ := Prod.mk.inj same
      obtain ⟨ahead, hmark⟩ := Cursor.ahead_advance hk (by decide)
      exact ⟨ahead, rfl, .pointer hmark⟩
    · obtain ⟨same, rfl⟩ := reads_pure_iff.mp hrest'
      obtain ⟨rfl, rfl⟩ := Prod.mk.inj same
      exact ⟨.refl _, rfl, .value⟩

/-- A `const` is taken where one is ahead. -/
theorem isConst_of_reads {o : Option Token} (h : Reads (accept .constKeyword) c o next) :
    c.Ahead o.toList next ∧ next.nextId = c.nextId ∧ IsConst o.toList o.isSome := by
  obtain ⟨hk, rfl, rfl⟩ | ⟨-, rfl, rfl⟩ := reads_accept_iff.mp h
  · obtain ⟨ahead, hmark⟩ := Cursor.ahead_advance hk (by decide)
    exact ⟨ahead, rfl, .present hmark⟩
  · exact ⟨.refl _, rfl, .absent⟩

/-- A type is read from the tokens of one and draws one id behind them. -/
theorem isType_of_reads {type : TypeExpr} (h : Reads typeExpr c type next) :
    ∃ ts, c.Ahead ts next ∧ ts ≠ [] ∧ IsType c.nextId ts type next.nextId := by
  obtain ⟨start, mid₀, h₀, h⟩ := reads_bind_iff.mp h
  obtain ⟨rfl, rfl⟩ := reads_span_iff.mp h₀
  obtain ⟨const?, mid₁, h₁, h⟩ := reads_bind_iff.mp h
  obtain ⟨head, mid₂, h₂, h⟩ := reads_bind_iff.mp h
  obtain ⟨⟨passing, mark⟩, mid₃, h₃, h⟩ := reads_bind_iff.mp h
  obtain ⟨id, mid₄, h₄, h⟩ := reads_bind_iff.mp h
  obtain ⟨rfl, rfl⟩ := reads_pure_iff.mp h
  obtain ⟨rfl, rfl⟩ := reads_freshId_iff.mp h₄
  obtain ⟨ahead₁, same₁, hconst⟩ := isConst_of_reads h₁
  obtain ⟨ts, t, ahead₂, same₂, hhead, hlast, last_eq⟩ := isTypeHead_of_reads h₂
  obtain ⟨ahead₃, same₃, hmark⟩ := isIndirection_of_reads h₃
  have ahead := (ahead₁.trans ahead₂).trans ahead₃
  have ids : mid₃.nextId = mid₀.nextId := same₃.trans (same₂.trans same₁)
  have nonempty : const?.toList ++ ts ++ mark.toList ≠ [] := by
    rintro hnil
    simp only [List.append_eq_nil_iff] at hnil
    simp [hnil.1.2] at hlast
  refine ⟨const?.toList ++ ts ++ mark.toList, ahead, nonempty, ?_⟩
  -- the span runs to the mark if there is one, and to the end of the name otherwise
  have span_eq : spanOf (const?.toList ++ ts ++ mark.toList) =
      mid₀.current.span.cover (mark.elim head.last (·.span)) := by
    obtain ⟨first, others, hcons⟩ := List.exists_cons_of_ne_nil nonempty
    rw [hcons] at ahead
    rw [current_of_ahead ahead, last_eq]
    cases mark with
    | none => exact spanOf_eq_cover (by rw [hcons]; rfl) (by simp [hlast])
    | some m => exact spanOf_eq_cover (by rw [hcons]; rfl) (by simp)
  rw [← span_eq, ids]
  exact .mk hconst hhead hmark

/-! ## Members -/

/-- A parameter that is answered has no default value. -/
theorem isParameter_of_reads {owner name : String} {param : ParameterDecl}
    (h : Reads (parameter owner name) c param next) :
    ∃ ts, c.Ahead ts next ∧ ts ≠ [] ∧ IsParameter c.nextId ts param next.nextId := by
  obtain ⟨type, mid₁, h₁, h⟩ := reads_bind_iff.mp h
  obtain ⟨ident, mid₂, h₂, h⟩ := reads_bind_iff.mp h
  obtain ⟨k, mid₃, h₃, h⟩ := reads_bind_iff.mp h
  obtain ⟨rfl, rfl⟩ := reads_kind_iff.mp h₃
  obtain ⟨hk, rfl, rfl⟩ := reads_expect_iff.mp h₂
  split at h
  · obtain ⟨s, mid₄, h₄, h⟩ := reads_bind_iff.mp h
    exact absurd h not_reads_fail
  · obtain ⟨id, mid₄, h₄, h⟩ := reads_bind_iff.mp h
    obtain ⟨rfl, rfl⟩ := reads_pure_iff.mp h
    obtain ⟨rfl, rfl⟩ := reads_freshId_iff.mp h₄
    obtain ⟨ts, ahead, -, htype⟩ := isType_of_reads h₁
    obtain ⟨ahead', hident⟩ := Cursor.ahead_advance hk (by decide)
    exact ⟨_, ahead.trans ahead', by simp, .mk htype hident⟩

/-- The list of parameters is over at the closing parenthesis and nowhere else; behind a parameter
there is that, or a comma. -/
theorem reads_nextParameter {owner name : String} {o : Option ParameterDecl}
    (h : Reads (nextParameter owner name) c o next) :
    (o = none ∧ c.kind = .closeParen ∧ next = c) ∨
    ∃ param ts, o = some param ∧ c.kind ≠ .closeParen ∧ ts ≠ [] ∧
      ((c.Ahead ts next ∧ IsParameter c.nextId ts param next.nextId ∧ next.kind = .closeParen) ∨
        ∃ comma, c.Ahead (ts ++ [comma]) next ∧ IsParameter c.nextId ts param next.nextId ∧
          comma.kind = .comma) := by
  obtain ⟨k, mid₁, h₁, h⟩ := reads_bind_iff.mp h
  obtain ⟨rfl, rfl⟩ := reads_kind_iff.mp h₁
  split at h
  · rename_i hk
    obtain ⟨rfl, rfl⟩ := reads_pure_iff.mp h
    exact .inl ⟨rfl, hk, rfl⟩
  · rename_i hopen
    obtain ⟨param, mid₂, h₂, h⟩ := reads_bind_iff.mp h
    obtain ⟨k, mid₃, h₃, h⟩ := reads_bind_iff.mp h
    obtain ⟨rfl, rfl⟩ := reads_kind_iff.mp h₃
    obtain ⟨ts, ahead, nonempty, hparam⟩ := isParameter_of_reads h₂
    refine .inr ⟨param, ts, ?_⟩
    split at h
    · obtain ⟨comma, mid₄, h₄, h⟩ := reads_bind_iff.mp h
      obtain ⟨rfl, rfl⟩ := reads_pure_iff.mp h
      obtain ⟨hk, rfl, rfl⟩ := reads_expect_iff.mp h₄
      obtain ⟨ahead', hcomma⟩ := Cursor.ahead_advance hk (by decide)
      exact ⟨rfl, hopen, nonempty, .inr ⟨_, ahead.trans ahead', hparam, hcomma⟩⟩
    · rename_i hk
      obtain ⟨rfl, rfl⟩ := reads_pure_iff.mp h
      exact ⟨rfl, hopen, nonempty, .inl ⟨ahead, hparam, not_not.mp hk⟩⟩

/-- By induction along the loop: it is left at a parenthesis, behind nothing or behind a list. -/
theorem isParameterList_of_collects {owner name : String} {params : List ParameterDecl}
    (h : Collects (nextParameter owner name) c params next) :
    next.kind = .closeParen ∧ ((params = [] ∧ next = c) ∨
      ∃ ts, c.Ahead ts next ∧ IsParameterList c.nextId ts params next.nextId) := by
  induction h with
  | stop last =>
    obtain ⟨-, hk, rfl⟩ | ⟨param, ts, h, -⟩ := reads_nextParameter last
    · exact ⟨hk, .inl ⟨rfl, rfl⟩⟩
    · cases h
  | more first others ih =>
    obtain ⟨hnext, ih⟩ := ih
    obtain ⟨h, -⟩ | ⟨param, ts, h, -, -, ⟨ahead, hparam, hk⟩ | ⟨comma, ahead, hparam, hcomma⟩⟩ :=
      reads_nextParameter first
    · cases h
    · cases h
      -- at the closing parenthesis nothing more can be collected
      cases others with
      | stop last =>
        obtain ⟨-, -, rfl⟩ | ⟨_, _, h, -⟩ := reads_nextParameter last
        · exact ⟨hk, .inr ⟨ts, ahead, .last hparam⟩⟩
        · cases h
      | more second =>
        obtain ⟨h, -⟩ | ⟨_, _, -, hopen, -⟩ := reads_nextParameter second
        · cases h
        · exact absurd hk hopen
    · cases h
      obtain ⟨rfl, rfl⟩ | ⟨us, ahead', hlist⟩ := ih
      · exact ⟨hnext, .inr ⟨_, ahead, .trailing hparam hcomma⟩⟩
      · refine ⟨hnext, .inr ⟨ts ++ comma :: us, ?_, .more hparam hcomma hlist⟩⟩
        simpa using ahead.trans ahead'

theorem reads_nextParameters_iff {owner name : String} {params : List ParameterDecl} :
    Reads (collect (nextParameter owner name)) c params next ↔
      Collects (nextParameter owner name) c params next := by
  refine reads_collect_iff (fun _ => True) (fun c a next _ h => ⟨?_, trivial⟩) trivial
  obtain ⟨h, -⟩ | ⟨param, ts, -, -, nonempty, ⟨ahead, -⟩ | ⟨comma, ahead, -⟩⟩ :=
    reads_nextParameter h
  · cases h
  · have taken := ahead.length
    have := List.length_pos_iff.mpr nonempty
    omega
  · have taken := ahead.length
    rw [List.length_append, List.length_singleton] at taken
    omega

/-- The parentheses are there, the first because it is expected and the last because the loop
stopped at it. -/
theorem isParameters_of_reads {owner name : String} {params : List ParameterDecl}
    (h : Reads (parameters owner name) c params next) :
    ∃ ts, c.Ahead ts next ∧ IsParameters c.nextId ts params next.nextId := by
  obtain ⟨opening, mid₁, h₁, h⟩ := reads_bind_iff.mp h
  obtain ⟨collected, mid₂, h₂, h⟩ := reads_bind_iff.mp h
  obtain ⟨closing, mid₃, h₃, h⟩ := reads_bind_iff.mp h
  obtain ⟨rfl, rfl⟩ := reads_pure_iff.mp h
  obtain ⟨rfl, rfl⟩ := reads_next_iff.mp h₃
  obtain ⟨hk, rfl, rfl⟩ := reads_expect_iff.mp h₁
  obtain ⟨hclose, hlist⟩ := isParameterList_of_collects (reads_nextParameters_iff.mp h₂)
  obtain ⟨ahead₁, hopening⟩ := Cursor.ahead_advance hk (by decide)
  obtain ⟨ahead₂, hclosing⟩ := Cursor.ahead_advance hclose (by decide)
  obtain ⟨rfl, rfl⟩ | ⟨ts, ahead, hlist⟩ := hlist
  · exact ⟨_, ahead₁.trans ahead₂, .none hopening hclosing⟩
  · refine ⟨c.current :: ts ++ [mid₂.current], ?_, .some hopening hlist hclosing⟩
    simpa using ahead₁.trans (ahead.trans ahead₂)

/-- Where a constructor is ahead, it is one that is read. -/
theorem isMember_of_reads_constructorDecl {owner : String} {read : ReadMember}
    (ahead_name : c.atConstructor owner = true)
    (h : Reads (constructorDecl owner c.current.span) c read next) :
    ∃ ts, c.Ahead ts next ∧ IsMember owner c.nextId ts read next.nextId := by
  obtain ⟨name, mid₁, h₁, h⟩ := reads_bind_iff.mp h
  obtain ⟨params, mid₂, h₂, h⟩ := reads_bind_iff.mp h
  obtain ⟨semi, mid₃, h₃, h⟩ := reads_bind_iff.mp h
  obtain ⟨id, mid₄, h₄, h⟩ := reads_bind_iff.mp h
  obtain ⟨rfl, rfl⟩ := reads_pure_iff.mp h
  obtain ⟨rfl, rfl⟩ := reads_freshId_iff.mp h₄
  obtain ⟨rfl, rfl⟩ := reads_next_iff.mp h₁
  obtain ⟨hk, rfl, rfl⟩ := reads_expect_iff.mp h₃
  obtain ⟨ahead₁, hname, howner⟩ := Cursor.ahead_of_atConstructor ahead_name
  obtain ⟨ps, ahead₂, hparams⟩ := isParameters_of_reads h₂
  obtain ⟨ahead₃, hsemi⟩ := Cursor.ahead_advance hk (by decide)
  have ahead : c.Ahead (c.current :: ps ++ [mid₂.current]) mid₂.advance := by
    simpa using ahead₁.trans (ahead₂.trans ahead₃)
  have span_eq : spanOf (c.current :: ps ++ [mid₂.current]) =
      c.current.span.cover mid₂.current.span :=
    spanOf_eq_cover rfl List.getLast?_concat
  have derived := IsMember.constructor hname howner hparams hsemi
  rw [span_eq] at derived
  exact ⟨_, ahead, derived⟩

/-- A name is let pass if and only if it follows the rule. -/
theorem reads_requireMethodName_iff {owner : String} {isStatic : Bool} {name : Token} {u : Unit} :
    Reads (requireMethodName owner isStatic name) c u next ↔
      (if isStatic then startsWithLetter name.text else startsLower name.text) = true ∧
        next = c := by
  cases isStatic <;> exact reads_require_iff

/-- A static method has no `const` behind its parameters. -/
theorem isConst_of_reads_constMark {owner name : String} {isStatic isConst : Bool}
    (h : Reads (constMark owner isStatic name) c isConst next) :
    ∃ cs, c.Ahead cs next ∧ next.nextId = c.nextId ∧ IsConst cs isConst ∧
      (isStatic = true → cs = [] ∧ isConst = false) := by
  obtain ⟨o, mid₁, h₁, h⟩ := reads_bind_iff.mp h
  obtain ⟨ahead, same, hconst⟩ := isConst_of_reads h₁
  cases o with
  | none =>
    obtain ⟨rfl, rfl⟩ := reads_pure_iff.mp h
    exact ⟨[], ahead, same, hconst, fun _ => ⟨rfl, rfl⟩⟩
  | some mark =>
    obtain ⟨u, mid₂, h₂, hpure⟩ := reads_bind_iff.mp h
    obtain ⟨rfl, rfl⟩ := reads_pure_iff.mp hpure
    obtain ⟨hstatic, rfl⟩ := reads_require_iff.mp h₂
    refine ⟨[mark], ahead, same, hconst, fun h => ?_⟩
    rw [h] at hstatic
    cases hstatic

/-- What the tokens of a method are behind its `static`, if it has one. -/
theorem isMember_of_reads_methodDecl {owner : String} {isStatic : Bool} {read : ReadMember}
    {front : List Token} {start : Token} {before : Cursor} (ahead_front : before.Ahead front c)
    (same_id : c.nextId = before.nextId)
    (hstart : (front ++ c.rest).head? = some start)
    (hfront : (isStatic = false ∧ front = []) ∨
      ∃ mark, isStatic = true ∧ front = [mark] ∧ mark.kind = .staticKeyword)
    (h : Reads (methodDecl owner start.span isStatic) c read next) :
    ∃ ts, before.Ahead ts next ∧ IsMember owner before.nextId ts read next.nextId := by
  obtain ⟨returns, mid₁, h₁, h⟩ := reads_bind_iff.mp h
  obtain ⟨name, mid₂, h₂, h⟩ := reads_bind_iff.mp h
  obtain ⟨u, mid₃, h₃, h⟩ := reads_bind_iff.mp h
  obtain ⟨params, mid₄, h₄, h⟩ := reads_bind_iff.mp h
  obtain ⟨isConst, mid₅, h₅, h⟩ := reads_bind_iff.mp h
  obtain ⟨semi, mid₆, h₆, h⟩ := reads_bind_iff.mp h
  obtain ⟨id, mid₇, h₇, h⟩ := reads_bind_iff.mp h
  obtain ⟨rfl, rfl⟩ := reads_pure_iff.mp h
  obtain ⟨rfl, rfl⟩ := reads_freshId_iff.mp h₇
  obtain ⟨hk₂, rfl, rfl⟩ := reads_expect_iff.mp h₂
  obtain ⟨hk₆, rfl, rfl⟩ := reads_expect_iff.mp h₆
  obtain ⟨hspelled, rfl⟩ := reads_requireMethodName_iff.mp h₃
  obtain ⟨ts, ahead₁, nonempty, htype⟩ := isType_of_reads h₁
  obtain ⟨ahead₂, hname⟩ := Cursor.ahead_advance hk₂ (by decide)
  obtain ⟨ps, ahead₄, hparams⟩ := isParameters_of_reads h₄
  obtain ⟨cs, ahead₅, same₅, hconst, hstatic⟩ := isConst_of_reads_constMark h₅
  obtain ⟨ahead₆, hsemi⟩ := Cursor.ahead_advance hk₆ (by decide)
  have ahead := ahead_front.trans
    (ahead₁.trans (ahead₂.trans (ahead₄.trans (ahead₅.trans ahead₆))))
  rw [same_id] at htype
  -- the span of a method starts where its type or its `static` does
  have head_eq : (front ++ ts).head? = some start := by
    rw [ahead₁] at hstart
    obtain ⟨t, ts, rfl⟩ := List.exists_cons_of_ne_nil nonempty
    cases front <;> simpa using hstart
  obtain ⟨rfl, rfl⟩ | ⟨mark, rfl, rfl, hmark⟩ := hfront
  · have ahead : before.Ahead (ts ++ mid₁.current :: ps ++ cs ++ [mid₅.current]) mid₅.advance := by
      simpa using ahead
    have span_eq : spanOf (ts ++ mid₁.current :: ps ++ cs ++ [mid₅.current]) =
        start.span.cover mid₅.current.span := by
      refine spanOf_eq_cover ?_ List.getLast?_concat
      obtain ⟨t, ts, rfl⟩ := List.exists_cons_of_ne_nil nonempty
      exact head_eq
    have derived : IsMember owner _ _ _ _ := .method htype hname hspelled hparams hconst hsemi
    rw [span_eq, ← same₅] at derived
    exact ⟨_, ahead, derived⟩
  · obtain ⟨rfl, rfl⟩ := hstatic rfl
    have ahead : before.Ahead (mark :: ts ++ mid₁.current :: ps ++ [mid₅.current])
        mid₅.advance := by
      simpa using ahead
    have span_eq : spanOf (mark :: ts ++ mid₁.current :: ps ++ [mid₅.current]) =
        start.span.cover mid₅.current.span :=
      spanOf_eq_cover head_eq List.getLast?_concat
    have derived : IsMember owner _ _ _ _ :=
      .staticMethod hmark htype hname hspelled hparams hsemi
    rw [span_eq, ← same₅] at derived
    exact ⟨_, ahead, derived⟩

/-- A member without a complaint is derived: each of its three ways to begin is one rule. -/
theorem isMember_of_reads {owner : String} {read : ReadMember}
    (h : Reads (member owner) c read next) :
    ∃ ts, c.Ahead ts next ∧ IsMember owner c.nextId ts read next.nextId := by
  obtain ⟨start, mid₁, h₁, h⟩ := reads_bind_iff.mp h
  obtain ⟨rfl, rfl⟩ := reads_span_iff.mp h₁
  obtain ⟨o, mid₂, h₂, h⟩ := reads_bind_iff.mp h
  obtain ⟨hk, rfl, rfl⟩ | ⟨hk, rfl, rfl⟩ := reads_accept_iff.mp h₂
  · obtain ⟨ahead, hmark⟩ := Cursor.ahead_advance hk (by decide)
    exact isMember_of_reads_methodDecl ahead rfl rfl (.inr ⟨_, rfl, rfl, hmark⟩) h
  · obtain ⟨here, mid₃, h₃, h⟩ := reads_bind_iff.mp h
    obtain ⟨rfl, rfl⟩ := reads_cursor_iff.mp h₃
    split at h
    · rename_i hat
      exact isMember_of_reads_constructorDecl hat h
    · refine isMember_of_reads_methodDecl (.refl _) rfl ?_ (.inl ⟨rfl, rfl⟩) h
      -- a method has a type in front, so there is a token ahead
      obtain ⟨returns, mid₄, h₄, -⟩ := reads_bind_iff.mp h
      obtain ⟨ts, ahead, nonempty, -⟩ := isType_of_reads h₄
      obtain ⟨t, ts, rfl⟩ := List.exists_cons_of_ne_nil nonempty
      rw [current_of_ahead ahead, ahead]
      rfl

/-- The body of a class is over at its closing brace, and nowhere else does a clean reading of it
stop. -/
theorem reads_nextMember {owner : String} {o : Option (Option ReadMember)}
    (h : Reads (nextMember owner) c o next) :
    (o = none ∧ c.kind = .closeBrace ∧ next = c) ∨
    ∃ read ts, o = some (some read) ∧ c.Ahead ts next ∧
      IsMember owner c.nextId ts read next.nextId := by
  obtain ⟨k, mid₁, h₁, h₂⟩ := reads_bind_iff.mp h
  obtain ⟨rfl, rfl⟩ := reads_kind_iff.mp h₁
  split at h₂
  · rename_i hk
    obtain ⟨rfl, rfl⟩ := reads_pure_iff.mp h₂
    exact .inl ⟨rfl, hk, rfl⟩
  · exact absurd h₂ not_reads_refuse
  · exact absurd h₂ not_reads_refuse
  · obtain ⟨r, mid₃, h₃, h₄⟩ := reads_bind_iff.mp h₂
    cases r with
    | ok read =>
      obtain ⟨rfl, rfl⟩ := reads_pure_iff.mp h₄
      obtain ⟨ts, ahead, hmember⟩ := isMember_of_reads (reads_attempt_iff.mp h₃)
      exact .inr ⟨read, ts, rfl, ahead, hmember⟩
    | error d =>
      obtain ⟨u, mid₅, h₅, -⟩ := reads_bind_iff.mp h₄
      exact absurd h₅ not_reads_report

theorem IsMember.nonempty {owner : String} {n n' : NodeId} {ts : List Token} {read : ReadMember}
    (h : IsMember owner n ts read n') : 0 < ts.length := by
  cases h <;> simp only [List.length_append, List.length_cons] <;> omega

/-- The loop over members is left at a brace, behind derived members. -/
theorem isMembers_of_collects {owner : String} {reads : List (Option ReadMember)}
    (h : Collects (nextMember owner) c reads next) :
    next.kind = .closeBrace ∧
      ∃ ts, c.Ahead ts next ∧ IsMembers owner c.nextId ts (reads.filterMap id) next.nextId := by
  induction h with
  | stop last =>
    obtain ⟨-, hk, rfl⟩ | ⟨read, ts, h, -⟩ := reads_nextMember last
    · exact ⟨hk, [], .refl _, .nil⟩
    · cases h
  | more first _ ih =>
    obtain ⟨hclose, us, ahead', hmembers⟩ := ih
    obtain ⟨h, -⟩ | ⟨read, ts, h, ahead, hmember⟩ := reads_nextMember first
    · cases h
    · cases h
      exact ⟨hclose, ts ++ us, ahead.trans ahead', .cons hmember hmembers⟩

theorem reads_nextMembers_iff {owner : String} {reads : List (Option ReadMember)} :
    Reads (collect (nextMember owner)) c reads next ↔ Collects (nextMember owner) c reads next := by
  refine reads_collect_iff (fun _ => True) (fun c a next _ h => ⟨?_, trivial⟩) trivial
  obtain ⟨h, -⟩ | ⟨read, ts, -, ahead, hmember⟩ := reads_nextMember h
  · cases h
  · have := ahead.length
    have := hmember.nonempty
    omega

/-! ## Items -/

/-- Reports are complaints, so there may be none. -/
theorem reads_reportAll_iff {ds : List Diagnostic} {u : Unit} :
    Reads (reportAll ds) c u next ↔ ds = [] ∧ next = c := by
  cases ds with
  | nil => simp [reportAll, reads_pure_iff]
  | cons d ds =>
    simp only [reportAll, List.forM_eq_forM, List.forM_cons, reads_bind_iff]
    simp [not_reads_report]

/-- The tokens of a class from its opening brace on, behind those in `front`. -/
theorem isClass_of_reads_classBody {settings : GrammarSettings} {keyword name : Token}
    {override : Option IncludeOverride} {decl : ClassDecl} {is : List Token} {before : Cursor}
    (ahead_front : before.Ahead (is ++ [keyword, name]) c) (same_id : c.nextId = before.nextId)
    (hoverride : IsOverride is override) (hkeyword : keyword.kind = .classKeyword)
    (hname : name.kind = .identifier) (hupper : startsUpper name.text = true)
    (h : Reads (classBody settings keyword.span name.text override) c decl next) :
    ∃ ts, before.Ahead ts next ∧ IsClass settings before.nextId ts decl next.nextId := by
  obtain ⟨opening, mid₁, h₁, h₂⟩ := reads_bind_iff.mp h
  obtain ⟨reads, mid₃, h₃, h₄⟩ := reads_bind_iff.mp h₂
  obtain ⟨closing, mid₅, h₅, h₆⟩ := reads_bind_iff.mp h₄
  obtain ⟨o, mid₇, h₇, h₈⟩ := reads_bind_iff.mp h₆
  obtain ⟨hopen, rfl, rfl⟩ := reads_expect_iff.mp h₁
  obtain ⟨rfl, rfl⟩ := reads_next_iff.mp h₅
  obtain ⟨hclose, ts, ahead₃, hmembers⟩ := isMembers_of_collects (reads_nextMembers_iff.mp h₃)
  obtain ⟨ahead₁, hopening⟩ := Cursor.ahead_advance hopen (by decide)
  obtain ⟨ahead₅, hclosing⟩ := Cursor.ahead_advance hclose (by decide)
  obtain ⟨hk, rfl, rfl⟩ | ⟨-, rfl, rfl⟩ := reads_accept_iff.mp h₇
  · obtain ⟨ahead₇, hsemi⟩ := Cursor.ahead_advance hk (by decide)
    have ahead : before.Ahead (is ++ [keyword, name, c.current] ++ ts ++
        [mid₃.current, mid₃.advance.current]) mid₃.advance.advance := by
      simpa using ahead_front.trans (ahead₁.trans (ahead₃.trans (ahead₅.trans ahead₇)))
    have span_eq : spanOf ([keyword, name, c.current] ++ ts ++ [mid₃.current]) =
        keyword.span.cover mid₃.current.span :=
      spanOf_eq_cover rfl List.getLast?_concat
    have derived (layout : settings.oneDeclarationPerLine = true →
        c.current.span.line ≠ mid₃.current.span.line → crowded (reads.filterMap id) = []) :=
      IsClass.mk hoverride hkeyword hname hupper hopening hmembers hclosing hsemi layout
    have same₁ : c.advance.nextId = before.nextId := same_id
    rw [span_eq, same₁] at derived
    dsimp only at h₈
    -- only now the settings are asked: where members may be crowded, there is nothing to report
    split at h₈
    · obtain ⟨u, mid₉, h₉, h₁₀⟩ := reads_bind_iff.mp h₈
      obtain ⟨id, mid₁₁, h₁₁, h₁₂⟩ := reads_bind_iff.mp h₁₀
      obtain ⟨rfl, rfl⟩ := reads_pure_iff.mp h₁₂
      obtain ⟨rfl, rfl⟩ := reads_freshId_iff.mp h₁₁
      obtain ⟨uncrowded, rfl⟩ := reads_reportAll_iff.mp h₉
      exact ⟨_, ahead, derived fun _ _ => List.map_eq_nil_iff.mp uncrowded⟩
    · rename_i hlayout
      obtain ⟨id, mid₁₁, h₁₁, h₁₂⟩ := reads_bind_iff.mp h₈
      obtain ⟨rfl, rfl⟩ := reads_pure_iff.mp h₁₂
      obtain ⟨rfl, rfl⟩ := reads_freshId_iff.mp h₁₁
      refine ⟨_, ahead, derived fun hone hlines => absurd ?_ hlayout⟩
      simp [hone, hlines]
  · -- without the `;` there is a report
    obtain ⟨here, mid, h₉, h₁₀⟩ := reads_bind_iff.mp h₈
    obtain ⟨u, mid₁₁, h₁₁, -⟩ := reads_bind_iff.mp h₁₀
    exact absurd h₁₁ not_reads_report

/-- A qualified forward declaration is always reported. -/
theorem not_reads_qualifiedForward {start : Span} {first : Token} {u : Unit} :
    ¬ Reads (qualifiedForward start first) c u next := by
  intro h
  obtain ⟨more, mid₁, -, h₂⟩ := reads_bind_iff.mp h
  obtain ⟨here, mid₃, -, h₄⟩ := reads_bind_iff.mp h₂
  obtain ⟨semi, mid₅, -, h₆⟩ := reads_bind_iff.mp h₄
  exact not_reads_report h₆

/-- A class or a forward declaration behind the include line that was read in front. -/
theorem isItem_of_reads_classItem {settings : GrammarSettings}
    {override : Option IncludeOverride} {o : Option Item} {is : List Token} {before : Cursor}
    (ahead_front : before.Ahead is c) (same_id : c.nextId = before.nextId)
    (hoverride : IsOverride is override) (hk : c.kind = .classKeyword)
    (h : Reads (classItem settings override) c o next) :
    ∃ item ts, o = some item ∧ before.Ahead ts next ∧
      IsItem settings before.nextId ts item next.nextId := by
  obtain ⟨keyword, mid₁, h₁, h₂⟩ := reads_bind_iff.mp h
  obtain ⟨name, mid₃, h₃, h₄⟩ := reads_bind_iff.mp h₂
  obtain ⟨k, mid₅, h₅, h₆⟩ := reads_bind_iff.mp h₄
  obtain ⟨rfl, rfl⟩ := reads_next_iff.mp h₁
  obtain ⟨hk₃, rfl, rfl⟩ := reads_expect_iff.mp h₃
  obtain ⟨rfl, rfl⟩ := reads_kind_iff.mp h₅
  obtain ⟨ahead₁, hkeyword⟩ := Cursor.ahead_advance hk (by decide)
  obtain ⟨ahead₃, hname⟩ := Cursor.ahead_advance hk₃ (by decide)
  have ahead : before.Ahead (is ++ [c.current, c.advance.current]) c.advance.advance :=
    ahead_front.trans (ahead₁.trans ahead₃)
  split at h₆
  · -- a qualified forward declaration is always reported
    obtain ⟨u, mid, h₇, -⟩ := reads_bind_iff.mp h₆
    exact absurd h₇ not_reads_qualifiedForward
  · obtain ⟨u, mid₇, h₇, h₈⟩ := reads_bind_iff.mp h₆
    obtain ⟨semi, mid₉, h₉, h₁₀⟩ := reads_bind_iff.mp h₈
    obtain ⟨hupper, rfl⟩ := reads_require_iff.mp h₇
    obtain ⟨hsemi, rfl, rfl⟩ | ⟨-, rfl, rfl⟩ := reads_accept_iff.mp h₉
    · obtain ⟨u, mid₁₁, h₁₁, h₁₂⟩ := reads_bind_iff.mp h₁₀
      obtain ⟨id, mid₁₃, h₁₃, h₁₄⟩ := reads_bind_iff.mp h₁₂
      obtain ⟨rfl, rfl⟩ := reads_pure_iff.mp h₁₄
      obtain ⟨rfl, rfl⟩ := reads_freshId_iff.mp h₁₃
      obtain ⟨ahead₉, hsemi⟩ := Cursor.ahead_advance hsemi (by decide)
      -- a forward declaration with an include line in front is reported too
      cases hoverride with
      | absent =>
        obtain ⟨-, rfl⟩ := reads_pure_iff.mp h₁₁
        refine ⟨_, _, rfl, ahead.trans ahead₉, .forward ?_⟩
        have same : c.advance.advance.advance.nextId = before.nextId := same_id
        rw [same]
        exact .mk hkeyword hname hupper hsemi
      | present => exact absurd h₁₁ not_reads_report
    · obtain ⟨decl, mid₁₁, h₁₁, h₁₂⟩ := reads_bind_iff.mp h₁₀
      obtain ⟨rfl, rfl⟩ := reads_pure_iff.mp h₁₂
      obtain ⟨ts, ahead', hclass⟩ :=
        isClass_of_reads_classBody ahead same_id hoverride hkeyword hname hupper h₁₁
      exact ⟨_, ts, rfl, ahead', .definition hclass⟩

theorem isNamespaceName_of_reads {o : Option Token} {u : Unit} {mid : Cursor}
    (h : Reads (accept .identifier) c o mid)
    (h' : Reads (o.forM fun t =>
      Parser.require (startsLower t.text) (.about t.span (.namespaceName t.text))) mid u next) :
    c.Ahead o.toList next ∧ next.nextId = c.nextId ∧
      IsNamespaceName o.toList (o.map (·.text)) := by
  obtain ⟨hk, rfl, rfl⟩ | ⟨-, rfl, rfl⟩ := reads_accept_iff.mp h
  · obtain ⟨ahead, hname⟩ := Cursor.ahead_advance hk (by decide)
    obtain ⟨hlower, rfl⟩ := reads_require_iff.mp h'
    exact ⟨ahead, rfl, .present hname hlower⟩
  · obtain ⟨-, rfl⟩ := reads_pure_iff.mp h'
    exact ⟨.refl _, rfl, .absent⟩

/-- A name counts as that of the namespace only behind an end marker and on its line. -/
theorem isClosing_of_reads {closeName : Option String}
    (hk : c.kind = .namespaceEnd ∨ c.kind = .closeBrace)
    (h : Reads (closingName c.current) c.advance closeName next) :
    ∃ cs, c.Ahead cs next ∧ next.nextId = c.nextId ∧ IsClosing cs c.current closeName := by
  obtain ⟨s, mid₁, h₁, h₂⟩ := reads_bind_iff.mp h
  obtain ⟨rfl, rfl⟩ := reads_span_iff.mp h₁
  have ⟨ahead, unnamed⟩ : c.Ahead [c.current] c.advance ∧ IsClosing [c.current] c.current none := by
    obtain hk | hk := hk
    · obtain ⟨ahead, hclosing⟩ := Cursor.ahead_advance hk (by decide)
      exact ⟨ahead, .marker hclosing⟩
    · obtain ⟨ahead, hclosing⟩ := Cursor.ahead_advance hk (by decide)
      exact ⟨ahead, .brace hclosing⟩
  split at h₂
  · rename_i hmarker
    simp only [Bool.and_eq_true, decide_eq_true_eq] at hmarker
    obtain ⟨o, mid₃, h₃, h₄⟩ := reads_bind_iff.mp h₂
    obtain ⟨rfl, rfl⟩ := reads_pure_iff.mp h₄
    obtain ⟨hname, rfl, rfl⟩ | ⟨-, rfl, rfl⟩ := reads_accept_iff.mp h₃
    · obtain ⟨ahead', hname⟩ := Cursor.ahead_advance hname (by decide)
      exact ⟨_, ahead.trans ahead', rfl, .named hmarker.1 hname hmarker.2⟩
    · exact ⟨_, ahead, rfl, unnamed⟩
  · obtain ⟨rfl, rfl⟩ := reads_pure_iff.mp h₂
    exact ⟨_, ahead, rfl, unnamed⟩

/-- No token ahead claims to be the end of the file. -/
def Open (c : Cursor) : Prop := ∀ t ∈ c.rest, t.kind ≠ .endOfFile

/-- Some tokens further on the file is still open. -/
theorem Open.of_ahead {ts : List Token} (h : Open c) (ahead : c.Ahead ts next) : Open next :=
  fun t ht => h t (by rw [ahead]; exact List.mem_append_right _ ht)

theorem Open.rest_eq_nil (h : Open c) (hk : c.kind = .endOfFile) : c.rest = [] := by
  obtain ⟨rest, stop, n⟩ := c
  cases rest with
  | nil => rfl
  | cons t ts => exact absurd hk (h t List.mem_cons_self)

/-- Where a list of items is over: at the end of the file, or inside a namespace at what closes
it. -/
def EndsItems (nested : Bool) (c : Cursor) : Prop :=
  c.rest = [] ∨ (nested = true ∧ (c.kind = .namespaceEnd ∨ c.kind = .closeBrace))

/-- What is asked of the parser of a namespace's body, on at most `k` tokens. -/
def ReadsItems (settings : GrammarSettings) (nested : Bool) (k : Nat) (body : Parser (List Item)) :
    Prop :=
  ∀ c items next, Open c → c.rest.length ≤ k → Reads body c items next → EndsItems nested next ∧
    ∃ ts, c.Ahead ts next ∧ IsItems settings c.nextId ts items next.nextId

/-- A namespace is derived if what `body` reads is. -/
theorem isItem_of_reads_namespaceItem {settings : GrammarSettings} {k : Nat}
    {body : Parser (List Item)} (hbody : ReadsItems settings true k body)
    {override : Option IncludeOverride} {item : Item} {is : List Token} {before : Cursor}
    (hopen : Open c) (short : c.rest.length ≤ k + 1)
    (ahead_front : before.Ahead is c) (same_id : c.nextId = before.nextId)
    (hoverride : IsOverride is override) (hk : c.kind = .namespaceKeyword)
    (h : Reads (namespaceItem body override) c item next) :
    ∃ ts, before.Ahead ts next ∧ IsItem settings before.nextId ts item next.nextId := by
  obtain ⟨keyword, mid₁, h₁, h₂⟩ := reads_bind_iff.mp h
  obtain ⟨name, mid₃, h₃, h₄⟩ := reads_bind_iff.mp h₂
  obtain ⟨u, mid₅, h₅, h₆⟩ := reads_bind_iff.mp h₄
  obtain ⟨opening, mid₇, h₇, h₈⟩ := reads_bind_iff.mp h₆
  obtain ⟨items, mid₉, h₉, h₁₀⟩ := reads_bind_iff.mp h₈
  obtain ⟨here, mid₁₁, h₁₁, h₁₂⟩ := reads_bind_iff.mp h₁₀
  obtain ⟨rfl, rfl⟩ := reads_next_iff.mp h₁
  obtain ⟨hopening, rfl, rfl⟩ := reads_expect_iff.mp h₇
  obtain ⟨rfl, rfl⟩ := reads_cursor_iff.mp h₁₁
  obtain ⟨ahead₁, hkeyword⟩ := Cursor.ahead_advance hk (by decide)
  obtain ⟨ahead₅, same₅, hname⟩ := isNamespaceName_of_reads h₃ h₅
  obtain ⟨ahead₇, hopening⟩ := Cursor.ahead_advance hopening (by decide)
  have ahead := ahead₁.trans (ahead₅.trans ahead₇)
  -- the keyword and the brace are taken, so the body is shorter than the namespace
  have shorter : mid₅.advance.rest.length ≤ k := by
    have := ahead.length
    simp only [List.length_append, List.length_singleton] at this
    omega
  obtain ⟨ends, ts, ahead₉, hitems⟩ := hbody _ _ _ (hopen.of_ahead ahead) shorter h₉
  split at h₁₂
  · exact absurd h₁₂ not_reads_fail
  · rename_i hend
    obtain ⟨closing, mid₁₃, h₁₃, h₁₄⟩ := reads_bind_iff.mp h₁₂
    obtain ⟨closeName, mid₁₅, h₁₅, h₁₆⟩ := reads_bind_iff.mp h₁₄
    obtain ⟨id, mid₁₇, h₁₇, h₁₈⟩ := reads_bind_iff.mp h₁₆
    obtain ⟨rfl, rfl⟩ := reads_pure_iff.mp h₁₈
    obtain ⟨rfl, rfl⟩ := reads_freshId_iff.mp h₁₇
    obtain ⟨rfl, rfl⟩ := reads_next_iff.mp h₁₃
    have hclosing : mid₁₁.kind = .namespaceEnd ∨ mid₁₁.kind = .closeBrace := by
      obtain hnil | ⟨-, hclosing⟩ := ends
      · exact absurd (Cursor.atEnd_of_rest_eq_nil hnil) hend
      · exact hclosing
    obtain ⟨cs, ahead₁₅, same₁₅, hclose⟩ := isClosing_of_reads hclosing h₁₅
    have same : mid₅.advance.nextId = before.nextId := same₅.trans same_id
    rw [same] at hitems
    have ahead : before.Ahead
        (is ++ c.current :: name.toList ++ mid₅.current :: ts ++ cs) mid₁₅ := by
      simpa using ahead_front.trans (ahead.trans (ahead₉.trans ahead₁₅))
    have derived := IsItem.space hoverride hkeyword hname hopening hitems hclose
    rw [← same₁₅] at derived
    exact ⟨_, ahead, derived⟩

theorem isOverride_of_reads {o : Option IncludeOverride} (h : Reads includeOverride c o next) :
    ∃ is, c.Ahead is next ∧ next.nextId = c.nextId ∧ IsOverride is o := by
  obtain ⟨t, mid₁, h₁, h₂⟩ := reads_bind_iff.mp h
  obtain ⟨rfl, rfl⟩ := reads_pure_iff.mp h₂
  obtain ⟨hk, rfl, rfl⟩ | ⟨-, rfl, rfl⟩ := reads_accept_iff.mp h₁
  · obtain ⟨ahead, hline⟩ := Cursor.ahead_advance hk (by decide)
    exact ⟨_, ahead, rfl, .present hline⟩
  · exact ⟨[], .refl _, rfl, .absent⟩

/-- An item without a complaint declares something, and it is derived. -/
theorem isItem_of_reads {settings : GrammarSettings} {k : Nat} {body : Parser (List Item)}
    (hbody : ReadsItems settings true k body) {o : Option Item} (hopen : Open c)
    (short : c.rest.length ≤ k + 1) (h : Reads (item settings body) c o next) :
    ∃ item ts, o = some item ∧ c.Ahead ts next ∧ IsItem settings c.nextId ts item next.nextId := by
  obtain ⟨override, mid₁, h₁, h₂⟩ := reads_bind_iff.mp h
  obtain ⟨kind, mid₃, h₃, h₄⟩ := reads_bind_iff.mp h₂
  obtain ⟨rfl, rfl⟩ := reads_kind_iff.mp h₃
  obtain ⟨is, ahead₁, same₁, hoverride⟩ := isOverride_of_reads h₁
  split at h₄
  · rename_i hk
    obtain ⟨item, mid₅, h₅, h₆⟩ := reads_bind_iff.mp h₄
    obtain ⟨rfl, rfl⟩ := reads_pure_iff.mp h₆
    have short' : mid₃.rest.length ≤ k + 1 := by
      have := ahead₁.length
      omega
    obtain ⟨ts, ahead, hitem⟩ := isItem_of_reads_namespaceItem hbody (hopen.of_ahead ahead₁) short'
      ahead₁ same₁ hoverride hk h₅
    exact ⟨item, ts, rfl, ahead, hitem⟩
  · rename_i hk
    exact isItem_of_reads_classItem ahead₁ same₁ hoverride hk h₄
  · split at h₄
    · obtain ⟨u, mid₅, h₅, -⟩ := reads_bind_iff.mp h₄
      exact absurd h₅ not_reads_report
    · exact absurd h₄ not_reads_refuse

theorem IsItem.nonempty {settings : GrammarSettings} {n n' : NodeId} {ts : List Token} {item : Item}
    (h : IsItem settings n ts item n') : 0 < ts.length := by
  cases h with
  | space =>
    simp only [List.length_append, List.length_cons]
    omega
  | definition hclass =>
    cases hclass
    simp only [List.length_append, List.length_cons]
    omega
  | forward hforward =>
    cases hforward
    exact Nat.zero_lt_succ _

/-- One turn of the loop over items: it is over, or an item was derived. -/
theorem reads_nextItem {settings : GrammarSettings} {nested : Bool} {k : Nat}
    {body : Parser (List Item)} (hbody : ReadsItems settings true k body)
    {o : Option (Option Item)} (hopen : Open c) (short : c.rest.length ≤ k + 1)
    (h : Reads (nextItem settings nested body) c o next) :
    (o = none ∧ EndsItems nested next ∧ next = c) ∨
    ∃ item ts, o = some (some item) ∧ c.Ahead ts next ∧
      IsItem settings c.nextId ts item next.nextId := by
  have closing (h : Reads (if nested then pure none else do
      Parser.fail (.about (← Parser.span) .unmatchedNamespaceEnd)) c o next) :
      o = none ∧ nested = true ∧ next = c := by
    split at h
    · rename_i hnested
      obtain ⟨rfl, rfl⟩ := reads_pure_iff.mp h
      exact ⟨rfl, hnested, rfl⟩
    · obtain ⟨s, mid, -, h'⟩ := reads_bind_iff.mp h
      exact absurd h' not_reads_fail
  obtain ⟨kind, mid₁, h₁, h₂⟩ := reads_bind_iff.mp h
  obtain ⟨rfl, rfl⟩ := reads_kind_iff.mp h₁
  -- the cases of the kind ahead: the end, an end marker, a closing brace, anything else
  split at h₂
  · rename_i hk
    obtain ⟨rfl, rfl⟩ := reads_pure_iff.mp h₂
    exact .inl ⟨rfl, .inl (hopen.rest_eq_nil hk), rfl⟩
  · rename_i hk
    obtain ⟨rfl, hnested, rfl⟩ := closing h₂
    exact .inl ⟨rfl, .inr ⟨hnested, .inl hk⟩, rfl⟩
  · rename_i hk
    obtain ⟨rfl, hnested, rfl⟩ := closing h₂
    exact .inl ⟨rfl, .inr ⟨hnested, .inr hk⟩, rfl⟩
  · obtain ⟨r, mid₃, h₃, h₄⟩ := reads_bind_iff.mp h₂
    cases r with
    | ok read =>
      obtain ⟨rfl, rfl⟩ := reads_pure_iff.mp h₄
      obtain ⟨item, ts, rfl, ahead, hitem⟩ :=
        isItem_of_reads hbody hopen short (reads_attempt_iff.mp h₃)
      exact .inr ⟨item, ts, rfl, ahead, hitem⟩
    | error d =>
      obtain ⟨here, mid₅, -, h₆⟩ := reads_bind_iff.mp h₄
      split at h₆
      · exact absurd h₆ not_reads_fail
      · obtain ⟨u, mid₇, h₇, -⟩ := reads_bind_iff.mp h₆
        exact absurd h₇ not_reads_report

theorem isItems_of_collects {settings : GrammarSettings} {nested : Bool} {k : Nat}
    {body : Parser (List Item)} (hbody : ReadsItems settings true k body)
    {reads : List (Option Item)} (hopen : Open c) (short : c.rest.length ≤ k + 1)
    (h : Collects (nextItem settings nested body) c reads next) :
    EndsItems nested next ∧
      ∃ ts, c.Ahead ts next ∧ IsItems settings c.nextId ts (reads.filterMap id) next.nextId := by
  induction h with
  | stop last =>
    obtain ⟨-, ends, rfl⟩ | ⟨item, ts, h, -⟩ := reads_nextItem hbody hopen short last
    · exact ⟨ends, [], .refl _, .nil⟩
    · cases h
  | more first _ ih =>
    obtain ⟨h, -⟩ | ⟨item, ts, h, ahead, hitem⟩ := reads_nextItem hbody hopen short first
    · cases h
    · cases h
      have := ahead.length
      obtain ⟨ends, us, ahead', hitems⟩ := ih (hopen.of_ahead ahead) (by omega)
      exact ⟨ends, ts ++ us, ahead.trans ahead', .cons hitem hitems⟩

theorem reads_nextItems_iff {settings : GrammarSettings} {nested : Bool} {k : Nat}
    {body : Parser (List Item)} (hbody : ReadsItems settings true k body)
    {reads : List (Option Item)} (hopen : Open c) (short : c.rest.length ≤ k + 1) :
    Reads (collect (nextItem settings nested body)) c reads next ↔
      Collects (nextItem settings nested body) c reads next := by
  refine reads_collect_iff (fun c => Open c ∧ c.rest.length ≤ k + 1) ?_ ⟨hopen, short⟩
  rintro c a next ⟨hopen, short⟩ h
  obtain ⟨h, -⟩ | ⟨item, ts, -, taken, hitem⟩ := reads_nextItem hbody hopen short h
  · cases h
  · have := taken.length
    have := hitem.nonempty
    exact ⟨by omega, hopen.of_ahead taken, by omega⟩

/-- The bound on the depth of namespaces is never met, because each of them takes a token. -/
theorem readsItems_itemsWithin (settings : GrammarSettings) (nested : Bool) (ahead : List Token) :
    ReadsItems settings nested ahead.length (itemsWithin settings nested ahead) := by
  induction ahead generalizing nested with
  | nil =>
    -- out of depth, but also out of tokens
    intro c items next _ short h
    obtain ⟨rfl, rfl⟩ := reads_pure_iff.mp h
    exact ⟨.inl (List.length_eq_zero_iff.mp (Nat.le_zero.mp short)), [], .refl _, .nil⟩
  | cons t ahead ih =>
    intro c items next hopen short h
    obtain ⟨reads, mid, h₁, h₂⟩ := reads_bind_iff.mp h
    obtain ⟨rfl, rfl⟩ := reads_pure_iff.mp h₂
    exact isItems_of_collects (ih true) hopen short
      ((reads_nextItems_iff (ih true) hopen short).mp h₁)

/-- A file is accepted when the parser of its items reads cleanly up to its end. -/
theorem ofTokens_eq_ok_iff {settings : GrammarSettings} {size : Nat} {tokens : List Token}
    {file : InterfaceFile} :
    InterfaceFile.ofTokens settings size tokens = .ok file ↔
      ∃ next, Reads (itemsWithin settings false (InterfaceFile.beginning size tokens).upToEnd.rest)
        (InterfaceFile.beginning size tokens).upToEnd file.items next := by
  simp only [Reads, InterfaceFile.reading_upToEnd]
  rw [InterfaceFile.ofTokens, ← InterfaceFile.reading]
  rcases InterfaceFile.reading settings size tokens with ⟨outcome, reported, next⟩
  obtain ⟨items⟩ := file
  cases outcome with
  | error d => simp [Parsed.upToEnd]
  | ok read => cases reported <;> simp [Parsed.upToEnd]

/-- A file that is cut off at its end is open. -/
theorem open_beginning (size : Nat) (tokens : List Token) :
    Open (InterfaceFile.beginning size tokens).upToEnd :=
  Cursor.kind_ne_of_mem_upToEnd _

/-- A file that is read without a complaint is derived from the tokens before its end. -/
theorem isFile_of_ofTokens {settings : GrammarSettings} {size : Nat} {tokens : List Token}
    {file : InterfaceFile} (h : InterfaceFile.ofTokens settings size tokens = .ok file) :
    IsFile settings (tokens.takeWhile (·.kind ≠ .endOfFile)) file := by
  obtain ⟨next, h⟩ := ofTokens_eq_ok_iff.mp h
  obtain ⟨ends, ts, ahead, hitems⟩ := readsItems_itemsWithin settings false _ _ _ _
    (open_beginning size tokens) (Nat.le_refl _) h
  obtain hnil | ⟨h, -⟩ := ends
  · rw [Cursor.Ahead, hnil, List.append_nil] at ahead
    subst ahead
    exact ⟨next.nextId, hitems⟩
  · cases h

end BindingIdl.Grammar
