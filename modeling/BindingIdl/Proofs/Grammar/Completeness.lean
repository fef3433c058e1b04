import BindingIdl.Compilation
import BindingIdl.Proofs.Grammar.Soundness
import BindingIdl.Proofs.Token.Gaps

/-!
# What is derived is read

A construct that the grammar derives is read cleanly, whatever follows it, as long as that does not
look like more of the same construct. What may follow is said by the kind of the token ahead of the
cursor that is reached: a type needs a name behind it, a namespace must not have one.
-/

open BindingIdl.Parser

namespace BindingIdl.Grammar

variable {stop : Token} {n n' : NodeId} {rest : List Token}

/-! ## Names and types -/

/-- The loop over segments stops behind the name, provided that no `::` follows, and its last token
is that of the name. -/
theorem IsName.collects {e : Expectation} {ts : List Token} {name : QualifiedName}
    (h : IsName ts name) (follow : (⟨rest, stop, n⟩ : Cursor).kind ≠ .doubleColon) :
    ∃ first us more, ts = first :: us ∧ first.kind = .identifier ∧ name = nameOf first more ∧
      us.getLastD first = more.getLastD first ∧
      Collects (nextSegment e) ⟨us ++ rest, stop, n⟩ more ⟨rest, stop, n⟩ := by
  induction h with
  | @bare t ht =>
    refine ⟨t, [], [], rfl, ht, rfl, rfl, ?_⟩
    exact .stop (reads_nextSegment_iff.mpr (.inl ⟨follow, rfl, rfl⟩))
  | @qualified t colons ts q ht hcolons _ ih =>
    obtain ⟨first, us, more, rfl, hfirst, rfl, hlast, hcollects⟩ := ih
    refine ⟨t, colons :: first :: us, first :: more, rfl, ht, (nameOf_cons t first more).symm, ?_,
      .more (reads_nextSegment_iff.mpr (.inr ⟨hcolons, hfirst, rfl, rfl⟩)) hcollects⟩
    rw [List.getLastD_cons, List.getLastD_cons, List.getLastD_cons, hlast]

/-- A name is read as a whole, with the span of its last segment. -/
theorem IsName.reads {e : Expectation} {ts : List Token} {name : QualifiedName}
    (h : IsName ts name) (follow : (⟨rest, stop, n⟩ : Cursor).kind ≠ .doubleColon) :
    ∃ t, ts.getLast? = some t ∧
      Reads (qualifiedName e) ⟨ts ++ rest, stop, n⟩ (name, t.span) ⟨rest, stop, n⟩ := by
  obtain ⟨first, us, more, rfl, hfirst, rfl, hlast, hcollects⟩ := h.collects (e := e) follow
  refine ⟨us.getLastD first, by rw [List.getLast?_cons, List.getLastD_eq_getLast?], ?_⟩
  rw [hlast]
  exact (Reads.expect hfirst).bind ((reads_segments_iff.mpr hcollects).bind .pure)

/-- Behind its first token, a name goes on with `::` or is over. -/
theorem IsName.second {ts : List Token} {name : QualifiedName} (h : IsName ts name)
    (rest : List Token) (stop : Token) (n : NodeId) :
    ∃ first us, ts = first :: us ∧ first.kind = .identifier ∧
      ((⟨us ++ rest, stop, n⟩ : Cursor).kind = .doubleColon ∨ us = []) := by
  cases h with
  | bare ht => exact ⟨_, [], rfl, ht, .inr rfl⟩
  | qualified ht hcolons => exact ⟨_, _, rfl, ht, .inl hcolons⟩

/-- A `<` behind a plain name would make it the head of a shared pointer, so none may follow. -/
theorem IsTypeHead.reads {ts : List Token} {name : QualifiedName} {wrapper : Option QualifiedName}
    (h : IsTypeHead ts name wrapper) (follow : (⟨rest, stop, n⟩ : Cursor).kind ≠ .doubleColon)
    (follow' : (⟨rest, stop, n⟩ : Cursor).kind ≠ .less) :
    ∃ t, ts.getLast? = some t ∧
      Reads typeHead ⟨ts ++ rest, stop, n⟩ ⟨name, wrapper, t.span⟩ ⟨rest, stop, n⟩ := by
  cases h with
  | plain hname =>
    obtain ⟨t, hlast, hreads⟩ := hname.reads (e := .typeName) follow
    refine ⟨t, hlast, hreads.bind (Reads.kind.bind ?_)⟩
    rw [if_pos follow']
    exact .pure
  | @shared ts us less greater wrapper name hwrapper hpointer hless hname hgreater =>
    obtain ⟨_, -, hreads⟩ := hwrapper.reads (e := .typeName)
      (show (⟨less :: us ++ [greater] ++ rest, stop, n⟩ : Cursor).kind ≠ _ by simp [hless])
    obtain ⟨_, -, hinner⟩ := hname.reads (e := .pointee)
      (show (⟨greater :: rest, stop, n⟩ : Cursor).kind ≠ _ by simp [hgreater])
    refine ⟨greater, List.getLast?_concat, ?_⟩
    simp only [List.append_assoc, List.cons_append, List.nil_append] at hreads ⊢
    refine hreads.bind (Reads.kind.bind ?_)
    rw [Cursor.kind_cons, if_neg (not_not.mpr hless), if_neg (not_not.mpr hpointer)]
    exact Reads.take.bind (hinner.bind ((Reads.expect hgreater).bind .pure))

/-- A `&` or `*` is read where it is written; a name in its place means a value. -/
theorem IsIndirection.reads {ms : List Token} {i : Indirection} (h : IsIndirection ms i)
    (follow : (⟨rest, stop, n⟩ : Cursor).kind = .identifier) :
    ∃ mark : Option Token, mark.toList = ms ∧
      Reads indirection ⟨ms ++ rest, stop, n⟩ (i, mark) ⟨rest, stop, n⟩ := by
  cases h with
  | value =>
    refine ⟨none, rfl, ?_⟩
    exact (Reads.accept_none (by rw [List.nil_append, follow]; decide)).bind
      ((Reads.accept_none (by rw [List.nil_append, follow]; decide)).bind .pure)
  | reference ht => exact ⟨some _, rfl, (Reads.accept ht).bind .pure⟩
  | @pointer t ht =>
    have hne : (⟨[t] ++ rest, stop, n⟩ : Cursor).kind ≠ .ampersand := by simp [ht]
    exact ⟨some t, rfl, (Reads.accept_none hne).bind ((Reads.accept ht).bind .pure)⟩

/-- The keyword is read where it is written, once. -/
theorem IsConst.reads {cs : List Token} {isConst : Bool} (h : IsConst cs isConst)
    (follow : (⟨rest, stop, n⟩ : Cursor).kind ≠ .constKeyword) :
    ∃ mark : Option Token, mark.toList = cs ∧ mark.isSome = isConst ∧
      Reads (accept .constKeyword) ⟨cs ++ rest, stop, n⟩ mark ⟨rest, stop, n⟩ := by
  cases h with
  | absent => exact ⟨none, rfl, rfl, .accept_none follow⟩
  | present ht => exact ⟨some _, rfl, rfl, .accept ht⟩

/-- What may be ahead behind the first token of a type and everything before its name. -/
theorem IsTypeHead.second {hs : List Token} {name : QualifiedName} {wrapper : Option QualifiedName}
    (h : IsTypeHead hs name wrapper) (rest : List Token) (stop : Token) (n : NodeId) :
    ∃ first us, hs = first :: us ∧ first.kind = .identifier ∧
      ((⟨us ++ rest, stop, n⟩ : Cursor).kind = .doubleColon ∨
        (⟨us ++ rest, stop, n⟩ : Cursor).kind = .less ∨ us = []) := by
  cases h with
  | plain hname =>
    obtain ⟨first, us, rfl, hfirst, hsecond⟩ := hname.second rest stop n
    exact ⟨first, us, rfl, hfirst, hsecond.imp_right .inr⟩
  | @shared ts us less greater wrapper name hwrapper _ hless _ _ =>
    obtain ⟨first, vs, rfl, hfirst, hsecond⟩ :=
      hwrapper.second (less :: us ++ [greater] ++ rest) stop n
    refine ⟨first, vs ++ less :: us ++ [greater], rfl, hfirst, ?_⟩
    obtain hcolons | rfl := hsecond
    · exact .inl (by simpa using hcolons)
    · exact .inr (.inl hless)

/-- A type is read up to the name that every use of one has behind it. -/
theorem IsType.reads {ts : List Token} {type : TypeExpr} (h : IsType n ts type n')
    (follow : (⟨rest, stop, n⟩ : Cursor).kind = .identifier) :
    Reads typeExpr ⟨ts ++ rest, stop, n⟩ type ⟨rest, stop, n'⟩ := by
  cases h with
  | @mk cs hs ms isConst name wrapper indirection hconst hhead hmark =>
    have hms : (⟨ms ++ rest, stop, n⟩ : Cursor).kind ≠ .doubleColon ∧
        (⟨ms ++ rest, stop, n⟩ : Cursor).kind ≠ .less := by
      cases hmark with
      | value => rw [List.nil_append, follow]; decide
      | reference ht => simp [ht]
      | pointer ht => simp [ht]
    obtain ⟨first, us, rfl, hfirst, -⟩ := hhead.second rest stop n
    obtain ⟨const?, rfl, rfl, hreads₁⟩ := hconst.reads
      (show (⟨first :: us ++ (ms ++ rest), stop, n⟩ : Cursor).kind ≠ _ by simp [hfirst])
    obtain ⟨last, hlast, hreads₂⟩ := hhead.reads hms.1 hms.2
    obtain ⟨mark, rfl, hreads₃⟩ := hmark.reads follow
    have span_eq : spanOf (const?.toList ++ first :: us ++ mark.toList) =
        (⟨const?.toList ++ first :: us ++ mark.toList ++ rest, stop, n⟩ : Cursor).current.span.cover
          (mark.elim last.span (·.span)) := by
      cases const? <;> cases mark <;>
        exact spanOf_eq_cover rfl (by simp [hlast, List.getLast?_cons])
    rw [span_eq]
    simp only [List.append_assoc] at hreads₁ hreads₂ ⊢
    exact Reads.span.bind (hreads₁.bind (hreads₂.bind (hreads₃.bind (Reads.freshId.bind .pure))))

/-- Where a type is ahead and then a name, no constructor is. -/
theorem IsType.not_atConstructor {ts : List Token} {type : TypeExpr} (h : IsType n ts type n')
    (follow : (⟨rest, stop, n⟩ : Cursor).kind = .identifier) (owner : String) :
    (⟨ts ++ rest, stop, n⟩ : Cursor).atConstructor owner = false := by
  have by_second {c : Cursor} (first : Token) (us : List Token) (hrest : c.rest = first :: us)
      (hsecond : (⟨us, stop, n⟩ : Cursor).kind ≠ .openParen) : c.atConstructor owner = false := by
    -- a constructor has its parenthesis right behind its first token
    cases us with
    | nil => simp [Cursor.atConstructor, hrest]
    | cons second us =>
      rw [Cursor.kind_cons] at hsecond
      simp [Cursor.atConstructor, hrest, hsecond]
  cases h with
  | @mk cs hs ms isConst name wrapper indirection hconst hhead hmark =>
    obtain ⟨first, us, rfl, hfirst, hsecond⟩ := hhead.second (ms ++ rest) stop n
    cases hconst with
    | @present t ht => simp [Cursor.atConstructor, ht]
    | absent =>
      refine by_second first (us ++ (ms ++ rest)) (by simp) ?_
      obtain hk | hk | rfl := hsecond
      · rw [hk]; decide
      · rw [hk]; decide
      · cases hmark with
        | value => rw [List.nil_append, List.nil_append, follow]; decide
        | reference hm => simp [hm]
        | pointer hm => simp [hm]

/-! ## Members -/

/-- An `=` behind the name would be a default value, which is refused. -/
theorem IsParameter.reads {owner name : String} {ts : List Token} {param : ParameterDecl}
    (h : IsParameter n ts param n') (follow : (⟨rest, stop, n⟩ : Cursor).kind ≠ .equals) :
    Reads (parameter owner name) ⟨ts ++ rest, stop, n⟩ param ⟨rest, stop, n'⟩ := by
  cases h with
  | @mk n₁ ts type ident htype hident =>
    have hreads := htype.reads (show (⟨ident :: rest, stop, n⟩ : Cursor).kind = _ from hident)
    rw [List.append_assoc]
    refine hreads.bind ((Reads.expect hident).bind (Reads.kind.bind ?_))
    rw [if_neg (show (⟨rest, stop, n₁⟩ : Cursor).kind ≠ .equals from follow)]
    exact Reads.freshId.bind .pure

/-- No type begins with a symbol: this is how a list without parameters is told from one with
some. -/
theorem IsType.first {ts : List Token} {type : TypeExpr} (h : IsType n ts type n') :
    ∃ t us, ts = t :: us ∧ (t.kind = .constKeyword ∨ t.kind = .identifier) := by
  cases h with
  | mk hconst hhead hmark =>
    obtain ⟨first, us, rfl, hfirst, -⟩ := hhead.second [] default 0
    cases hconst with
    | absent => exact ⟨first, _, rfl, .inr hfirst⟩
    | present ht => exact ⟨_, _, rfl, .inl ht⟩

theorem IsParameter.first {ts : List Token} {param : ParameterDecl}
    (h : IsParameter n ts param n') :
    ∃ t us, ts = t :: us ∧ (t.kind = .constKeyword ∨ t.kind = .identifier) := by
  cases h with
  | mk htype =>
    obtain ⟨t, us, rfl, ht⟩ := htype.first
    exact ⟨t, _, rfl, ht⟩

/-- At the closing parenthesis there are no more parameters. -/
theorem reads_nextParameter_none {owner name : String} {closing : Token}
    (h : closing.kind = .closeParen) :
    Reads (nextParameter owner name) ⟨closing :: rest, stop, n⟩ none
      ⟨closing :: rest, stop, n⟩ := by
  refine Reads.kind.bind ?_
  rw [Cursor.kind_cons, if_pos h]
  exact .pure

/-- By induction on the list, with or without a comma behind its last parameter. -/
theorem IsParameterList.collects {owner name : String} {ts : List Token}
    {params : List ParameterDecl} (h : IsParameterList n ts params n') {closing : Token}
    (hclosing : closing.kind = .closeParen) :
    Collects (nextParameter owner name) ⟨ts ++ closing :: rest, stop, n⟩ params
      ⟨closing :: rest, stop, n'⟩ := by
  have hlast {m : NodeId} : Collects (nextParameter owner name) ⟨closing :: rest, stop, m⟩ []
      ⟨closing :: rest, stop, m⟩ := .stop (reads_nextParameter_none hclosing)
  have opens {n n' : NodeId} {ts us : List Token} {param : ParameterDecl}
      (h : IsParameter n ts param n') : (⟨ts ++ us, stop, n⟩ : Cursor).kind ≠ .closeParen := by
    obtain ⟨t, us, rfl, ht | ht⟩ := h.first <;> simp [ht]
  have one_more {n n' : NodeId} {ts us : List Token} {param : ParameterDecl} {comma : Token}
      (h : IsParameter n ts param n') (hcomma : comma.kind = .comma) :
      Reads (nextParameter owner name) ⟨ts ++ comma :: us, stop, n⟩ (some param)
        ⟨us, stop, n'⟩ := by
    refine Reads.kind.bind ?_
    rw [if_neg (opens h)]
    refine (h.reads (by simp [hcomma])).bind (Reads.kind.bind ?_)
    rw [Cursor.kind_cons, if_pos (by rw [hcomma]; decide)]
    exact (Reads.expect hcomma).bind .pure
  -- only the last parameter may have the parenthesis behind it, the others have a comma
  induction h with
  | last hparam =>
    refine .more (Reads.kind.bind ?_) hlast
    rw [if_neg (opens hparam)]
    refine (hparam.reads (by simp [hclosing])).bind (Reads.kind.bind ?_)
    rw [Cursor.kind_cons, if_neg (not_not.mpr hclosing)]
    exact .pure
  | trailing hparam hcomma =>
    rw [List.append_assoc]
    exact .more (one_more hparam hcomma) hlast
  | more hparam hcomma _ ih =>
    rw [List.append_assoc]
    exact .more (one_more hparam hcomma) ih

/-- A parameter list in its parentheses, empty or not, is read whatever follows. -/
theorem IsParameters.reads {owner name : String} {ts : List Token} {params : List ParameterDecl}
    (h : IsParameters n ts params n') :
    Reads (parameters owner name) ⟨ts ++ rest, stop, n⟩ params ⟨rest, stop, n'⟩ := by
  cases h with
  | @none opening closing hopening hclosing =>
    have hlast : Collects (nextParameter owner name) ⟨closing :: rest, stop, n⟩ []
        ⟨closing :: rest, stop, n⟩ := .stop (reads_nextParameter_none hclosing)
    exact (Reads.expect hopening).bind
      ((reads_nextParameters_iff.mpr hlast).bind (Reads.take.bind .pure))
  | some hopening hlist hclosing =>
    rw [List.cons_append, List.cons_append, List.append_assoc]
    exact (Reads.expect hopening).bind (.bind
      (reads_nextParameters_iff.mpr (hlist.collects hclosing)) (Reads.take.bind .pure))

/-- A list of parameters starts with its parenthesis. -/
theorem IsParameters.first {ts : List Token} {params : List ParameterDecl}
    (h : IsParameters n ts params n') : ∃ t us, ts = t :: us ∧ t.kind = .openParen := by
  cases h with
  | none hopening => exact ⟨_, _, rfl, hopening⟩
  | some hopening => exact ⟨_, _, rfl, hopening⟩

/-- A name that follows the rule is no complaint, and no token is taken. -/
theorem reads_requireMethodName {owner : String} {isStatic : Bool} {name : Token} {c : Cursor}
    (h : (if isStatic then startsWithLetter name.text else startsLower name.text) = true) :
    Reads (requireMethodName owner isStatic name) c () c :=
  reads_requireMethodName_iff.mpr ⟨h, rfl⟩

/-- A mark behind the parameters is read as such; a static method has none, so there is nothing to
complain about. -/
theorem reads_constMark {owner name : String} {isStatic isConst : Bool} {cs : List Token}
    (h : IsConst cs isConst) (hstatic : isStatic = true → isConst = false)
    (follow : (⟨rest, stop, n⟩ : Cursor).kind ≠ .constKeyword) :
    Reads (constMark owner isStatic name) ⟨cs ++ rest, stop, n⟩ isConst ⟨rest, stop, n⟩ := by
  cases h with
  | absent => exact (Reads.accept_none follow).bind .pure
  | present ht =>
    have not_static : (!isStatic) = true := by cases isStatic <;> simp_all
    exact (Reads.accept ht).bind ((Reads.require not_static).bind .pure)

/-- The part of a method behind its `static`, at the cursor where its type is ahead. -/
theorem reads_methodDecl {owner : String} {isStatic isConst : Bool} (start : Span)
    {ts ps cs : List Token} {name semi : Token} {returns : TypeExpr} {params : List ParameterDecl}
    {n₁ n₂ : NodeId} (htype : IsType n ts returns n₁) (hname : name.kind = .identifier)
    (hspelled : (if isStatic then startsWithLetter name.text else startsLower name.text) = true)
    (hparams : IsParameters n₁ ps params n₂) (hconst : IsConst cs isConst)
    (hstatic : isStatic = true → isConst = false) (hsemi : semi.kind = .semicolon) :
    Reads (methodDecl owner start isStatic)
      ⟨ts ++ name :: (ps ++ (cs ++ semi :: rest)), stop, n⟩
      ⟨.method ⟨n₂, name.text, isStatic, isConst, params, returns, start.cover semi.span⟩,
        semi.span.line⟩
      ⟨rest, stop, n₂ + 1⟩ := by
  have hreads := htype.reads
    (show (⟨name :: (ps ++ (cs ++ semi :: rest)), stop, n⟩ : Cursor).kind = _ from hname)
  have hmark : Reads (constMark owner isStatic name.text) _ _ _ := reads_constMark hconst hstatic
    (show (⟨semi :: rest, stop, n₂⟩ : Cursor).kind ≠ _ by simp [hsemi])
  exact hreads.bind ((Reads.expect hname).bind ((reads_requireMethodName hspelled).bind
    (hparams.reads.bind (hmark.bind ((Reads.expect hsemi).bind (Reads.freshId.bind .pure))))))

/-- Every derived member is read up to its `;`, whatever follows. -/
theorem IsMember.reads {owner : String} {ts : List Token} {read : ReadMember}
    (h : IsMember owner n ts read n') :
    Reads (member owner) ⟨ts ++ rest, stop, n⟩ read ⟨rest, stop, n'⟩ := by
  cases h with
  | @constructor n' ps name semi params hname howner hparams hsemi =>
    obtain ⟨paren, ps, rfl, hparen⟩ := hparams.first
    have span_eq : spanOf (name :: (paren :: ps) ++ [semi]) = name.span.cover semi.span :=
      spanOf_eq_cover rfl List.getLast?_concat
    have at_constructor : (⟨name :: (paren :: ps ++ semi :: rest), stop, n⟩ : Cursor).atConstructor
        owner = true := by
      simp [Cursor.atConstructor, hname, howner, hparen]
    rw [span_eq, List.cons_append, List.cons_append, List.append_assoc]
    refine Reads.span.bind ((Reads.accept_none (by simp [hname])).bind (Reads.cursor.bind ?_))
    rw [List.singleton_append, if_pos at_constructor]
    exact Reads.take.bind (hparams.reads.bind ((Reads.expect hsemi).bind
      (Reads.freshId.bind .pure)))
  | @method n₁ n₂ ts ps cs name semi returns params isConst htype hname hlower hparams hconst
      hsemi =>
    -- no parenthesis stands second, so the method is not taken for a constructor
    have not_at := htype.not_atConstructor
      (show (⟨name :: (ps ++ (cs ++ semi :: rest)), stop, n⟩ : Cursor).kind = _ from hname) owner
    obtain ⟨t, us, rfl, ht⟩ := htype.first
    have span_eq : spanOf (t :: us ++ name :: ps ++ cs ++ [semi]) = t.span.cover semi.span :=
      spanOf_eq_cover rfl List.getLast?_concat
    rw [span_eq]
    simp only [List.append_assoc, List.cons_append, List.nil_append] at not_at ⊢
    refine Reads.span.bind ((Reads.accept_none ?_).bind (Reads.cursor.bind ?_))
    · obtain ht | ht := ht <;> simp [ht]
    · have hreads : Reads (methodDecl owner t.span false)
          ⟨t :: us ++ name :: (ps ++ (cs ++ semi :: rest)), stop, n⟩ _ _ :=
        reads_methodDecl t.span htype hname hlower hparams hconst (fun h => by cases h) hsemi
      rw [if_neg (by rw [not_at]; decide)]
      exact hreads
  | @staticMethod n₁ n₂ ts ps mark name semi returns params hmark htype hname hletter hparams
      hsemi =>
    have span_eq : spanOf (mark :: ts ++ name :: ps ++ [semi]) = mark.span.cover semi.span :=
      spanOf_eq_cover rfl List.getLast?_concat
    have hreads : Reads (methodDecl owner mark.span true)
        ⟨ts ++ name :: (ps ++ ([] ++ semi :: rest)), stop, n⟩ _ _ :=
      reads_methodDecl mark.span htype hname hletter hparams .absent (fun _ => rfl) hsemi
    rw [span_eq]
    simp only [List.append_assoc, List.cons_append, List.nil_append] at hreads ⊢
    exact Reads.span.bind ((Reads.accept hmark).bind hreads)

/-- What a member can begin with. None of these closes the class. -/
theorem IsMember.first {owner : String} {ts : List Token} {read : ReadMember}
    (h : IsMember owner n ts read n') :
    ∃ t us, ts = t :: us ∧
      (t.kind = .constKeyword ∨ t.kind = .identifier ∨ t.kind = .staticKeyword) := by
  cases h with
  | constructor hname => exact ⟨_, _, rfl, .inr (.inl hname)⟩
  | method htype =>
    obtain ⟨t, us, rfl, ht⟩ := htype.first
    exact ⟨t, _, rfl, ht.imp_right .inl⟩
  | staticMethod hmark => exact ⟨_, _, rfl, .inr (.inr hmark)⟩

/-- One turn of the loop over members. -/
theorem IsMember.reads_nextMember {owner : String} {ts : List Token} {read : ReadMember}
    (h : IsMember owner n ts read n') :
    Reads (nextMember owner) ⟨ts ++ rest, stop, n⟩ (some (some read)) ⟨rest, stop, n'⟩ := by
  have hreads : Reads _ ⟨ts ++ rest, stop, n⟩ _ _ := h.reads
  obtain ⟨t, us, rfl, ht⟩ := h.first
  refine Reads.kind.bind ?_
  obtain ht | ht | ht := ht <;>
    rw [List.cons_append, Cursor.kind_cons, ht] <;>
    exact (reads_attempt_iff.mpr hreads).bind .pure

/-- The loop over members stops at the brace behind them. -/
theorem IsMembers.collects {owner : String} {ts : List Token} {members : List ReadMember}
    (h : IsMembers owner n ts members n') {closing : Token}
    (hclosing : closing.kind = .closeBrace) :
    Collects (nextMember owner) ⟨ts ++ closing :: rest, stop, n⟩ (members.map some)
      ⟨closing :: rest, stop, n'⟩ := by
  induction h with
  | nil =>
    refine .stop (Reads.kind.bind ?_)
    rw [List.nil_append, Cursor.kind_cons, hclosing]
    exact .pure
  | cons hmember _ ih =>
    rw [List.append_assoc]
    exact .more hmember.reads_nextMember ih

/-! ## Items -/

/-- A header in front of an item is read, and there may be one only. -/
theorem IsOverride.reads {is : List Token} {override : Option IncludeOverride}
    (h : IsOverride is override) (follow : (⟨rest, stop, n⟩ : Cursor).kind ≠ .includeLine) :
    Reads includeOverride ⟨is ++ rest, stop, n⟩ override ⟨rest, stop, n⟩ := by
  cases h with
  | absent => exact (Reads.accept_none follow).bind .pure
  | present ht => exact (Reads.accept ht).bind .pure

/-- Without a header in front a forward declaration is read. -/
theorem IsForward.reads {settings : GrammarSettings} {ts : List Token} {decl : ForwardDecl}
    (h : IsForward n ts decl n') :
    Reads (classItem settings none) ⟨ts ++ rest, stop, n⟩ (some (.forward decl))
      ⟨rest, stop, n'⟩ := by
  cases h with
  | @mk keyword name semi hkeyword hname hupper hsemi =>
    simp only [List.cons_append, List.nil_append]
    refine Reads.take.bind ((Reads.expect hname).bind (Reads.kind.bind ?_))
    rw [Cursor.kind_cons, if_neg (by rw [hsemi]; decide)]
    exact (Reads.require hupper).bind ((Reads.accept hsemi).bind
      (Reads.pure.bind (Reads.freshId.bind .pure)))

/-- A class is read behind its header, which the parser of items takes first. -/
theorem IsClass.reads {settings : GrammarSettings} {ts : List Token} {decl : ClassDecl}
    (h : IsClass settings n ts decl n') (rest : List Token) (stop : Token) :
    ∃ is us, ts = is ++ us ∧ (∃ keyword vs, us = keyword :: vs ∧ keyword.kind = .classKeyword) ∧
      ∃ override, IsOverride is override ∧
        Reads (classItem settings override) ⟨us ++ rest, stop, n⟩ (some (.definition decl))
          ⟨rest, stop, n'⟩ := by
  cases h with
  | @mk n' is ts keyword name opening closing semi override members hoverride hkeyword hname hupper
      hopening hmembers hclosing hsemi layout =>
    refine ⟨is, [keyword, name, opening] ++ ts ++ [closing, semi], by simp, ⟨_, _, rfl, hkeyword⟩,
      override, hoverride, ?_⟩
    have span_eq : spanOf ([keyword, name, opening] ++ ts ++ [closing]) =
        keyword.span.cover closing.span :=
      spanOf_eq_cover rfl List.getLast?_concat
    have hbody : Reads _ ⟨ts ++ closing :: semi :: rest, stop, n⟩ _ _ :=
      reads_nextMembers_iff.mpr (hmembers.collects hclosing)
    rw [span_eq]
    simp only [List.append_assoc, List.cons_append, List.nil_append]
    refine Reads.take.bind ((Reads.expect hname).bind (Reads.kind.bind ?_))
    rw [Cursor.kind_cons, if_neg (by rw [hopening]; decide)]
    refine (Reads.require hupper).bind ((Reads.accept_none (by simp [hopening])).bind ?_)
    refine Reads.bind ?_ .pure
    refine (Reads.expect hopening).bind (hbody.bind (Reads.take.bind ?_))
    refine (Reads.accept hsemi).bind ?_
    -- a derived class has no members that were only read over
    have all_read : (members.map some).filterMap id = members := by simp
    rw [all_read]
    split
    · rename_i hlayout
      simp only [Bool.and_eq_true, decide_eq_true_eq] at hlayout
      rw [layout hlayout.1 hlayout.2]
      exact Reads.bind (a := ()) (reads_reportAll_iff.mpr ⟨rfl, rfl⟩) (Reads.freshId.bind .pure)
    · exact Reads.freshId.bind .pure

/-- The name of a namespace, if it has one: what follows must not look like it. -/
theorem IsNamespaceName.reads {ns : List Token} {name : Option String}
    (h : IsNamespaceName ns name) (follow : (⟨rest, stop, n⟩ : Cursor).kind ≠ .identifier) :
    ∃ t : Option Token, t.map (·.text) = name ∧
      Reads (Parser.accept .identifier) ⟨ns ++ rest, stop, n⟩ t ⟨rest, stop, n⟩ ∧
      Reads (t.forM fun t =>
        Parser.require (startsLower t.text) (.about t.span (.namespaceName t.text)))
        ⟨rest, stop, n⟩ () ⟨rest, stop, n⟩ := by
  cases h with
  | absent => exact ⟨none, rfl, .accept_none follow, .pure⟩
  | present ht hlower => exact ⟨some _, rfl, .accept ht, .require hlower⟩

/-- What is ahead is not taken for the name of what `closing` closes: it is no name, or it is on
another line. -/
def Unnamed (closing : Token) (c : Cursor) : Prop :=
  c.kind = .identifier → c.current.span.line ≠ closing.span.line

/-- What closes a namespace is read by its first token and the name that may be behind it. -/
theorem IsClosing.reads {cs : List Token} {closing : Token} {closeName : Option String}
    (h : IsClosing cs closing closeName) (follow : Unnamed closing ⟨rest, stop, n⟩) :
    ∃ us, cs = closing :: us ∧ (closing.kind = .namespaceEnd ∨ closing.kind = .closeBrace) ∧
      Reads (closingName closing) ⟨us ++ rest, stop, n⟩ closeName ⟨rest, stop, n⟩ := by
  cases h with
  | brace ht =>
    refine ⟨[], rfl, .inr ht, Reads.span.bind ?_⟩
    rw [if_neg (by simp [ht])]
    exact .pure
  | marker ht =>
    refine ⟨[], rfl, .inl ht, Reads.span.bind ?_⟩
    split
    · rename_i hline
      simp only [Bool.and_eq_true, decide_eq_true_eq] at hline
      exact (Reads.accept_none fun hk => follow hk hline.2).bind .pure
    · exact .pure
  | @named _ name ht hname hline =>
    refine ⟨[name], rfl, .inl ht, Reads.span.bind ?_⟩
    rw [if_pos (by simpa [ht, Cursor.current] using hline)]
    exact (Reads.accept hname).bind .pure

/-- Where the items of a list are over, nothing is ahead that could name what was closed. -/
theorem EndsItems.kind_ne_identifier {nested : Bool} {c : Cursor} (h : EndsItems nested c) :
    c.kind ≠ .identifier := by
  obtain ⟨ts, stop, n⟩ := c
  obtain hnil | ⟨-, hk | hk⟩ := h
  · rw [show ts = [] from hnil]
    exact TokenKind.noConfusion
  · rw [hk]
    decide
  · rw [hk]
    decide

/-- What is asked of the parser of a namespace's body: to read items on at most `k` tokens. -/
def ReadsDerived (settings : GrammarSettings) (k : Nat) (body : Parser (List Item)) : Prop :=
  ∀ {n n' ts items rest stop}, IsItems settings n ts items n' → Open ⟨ts ++ rest, stop, n⟩ →
    EndsItems true ⟨rest, stop, n'⟩ → (ts ++ rest).length ≤ k →
      Reads body ⟨ts ++ rest, stop, n⟩ items ⟨rest, stop, n'⟩

/-- An item starts with an include line or a keyword. -/
theorem IsItem.first {settings : GrammarSettings} {ts : List Token} {item : Item}
    (h : IsItem settings n ts item n') :
    ∃ t us, ts = t :: us ∧
      (t.kind = .includeLine ∨ t.kind = .namespaceKeyword ∨ t.kind = .classKeyword) := by
  cases h with
  | space hoverride hkeyword =>
    cases hoverride with
    | absent => exact ⟨_, _, rfl, .inr (.inl hkeyword)⟩
    | present ht => exact ⟨_, _, rfl, .inl ht⟩
  | definition hclass =>
    obtain ⟨is, us, rfl, ⟨keyword, vs, rfl, hkeyword⟩, override, hoverride, -⟩ :=
      hclass.reads [] default
    cases hoverride with
    | absent => exact ⟨_, _, rfl, .inr (.inr hkeyword)⟩
    | present ht => exact ⟨_, _, rfl, .inl ht⟩
  | forward hforward =>
    cases hforward with
    | mk hkeyword => exact ⟨_, _, rfl, .inr (.inr hkeyword)⟩

/-- An item is read if `body` reads what is inside a namespace. -/
theorem IsItem.reads {settings : GrammarSettings} {k : Nat} {body : Parser (List Item)}
    (hbody : ReadsDerived settings k body) {ts : List Token} {read : Item}
    (h : IsItem settings n ts read n') (hopen : Open ⟨ts ++ rest, stop, n⟩)
    (short : (ts ++ rest).length ≤ k + 1)
    (follow : ∀ t ∈ ts, Unnamed t ⟨rest, stop, n'⟩) :
    Reads (item settings body) ⟨ts ++ rest, stop, n⟩ (some read) ⟨rest, stop, n'⟩ := by
  cases h with
  | @space _ n' is ns ts cs keyword opening closing override name closeName items hoverride hkeyword
      hname hopening hitems hclosing =>
    have hmem : closing ∈ cs := by cases hclosing <;> exact List.mem_cons_self
    have hunnamed : Unnamed closing ⟨rest, stop, n'⟩ :=
      follow closing (List.mem_append_right _ hmem)
    obtain ⟨us, rfl, hclose, hreads₅⟩ := hclosing.reads hunnamed
    obtain ⟨t, rfl, hreads₂, hreads₃⟩ := hname.reads
      (show (⟨opening :: (ts ++ (closing :: us ++ rest)), stop, n⟩ : Cursor).kind ≠ _ by
        simp [hopening])
    have hreads₁ := hoverride.reads
      (show (⟨keyword :: (ns ++ opening :: (ts ++ (closing :: us ++ rest))), stop, n⟩ :
        Cursor).kind ≠ _ by simp [hkeyword])
    -- the closing brace is what the body stops at
    have hends : EndsItems true ⟨closing :: us ++ rest, stop, n'⟩ := .inr ⟨rfl, hclose⟩
    have inner : Cursor.Ahead
        ⟨is ++ keyword :: ns ++ opening :: ts ++ closing :: us ++ rest, stop, n⟩
        (is ++ keyword :: ns ++ [opening]) ⟨ts ++ (closing :: us ++ rest), stop, n⟩ := by
      simp [Cursor.Ahead]
    -- the keyword and the opening brace are taken, so what is left is in reach of `body`
    have hreads₄ := hbody hitems (hopen.of_ahead inner) hends (by simp at short ⊢; omega)
    simp only [List.append_assoc, List.cons_append] at hreads₁ hreads₂ hreads₄ ⊢
    refine hreads₁.bind (Reads.kind.bind ?_)
    rw [Cursor.kind_cons, hkeyword]
    refine Reads.bind ?_ .pure
    refine Reads.take.bind (hreads₂.bind (hreads₃.bind ((Reads.expect hopening).bind
      (hreads₄.bind (Reads.cursor.bind ?_)))))
    rw [if_neg (Cursor.not_atEnd_of_closing hclose)]
    exact Reads.take.bind (hreads₅.bind (Reads.freshId.bind .pure))
  | definition hclass =>
    obtain ⟨is, us, rfl, ⟨keyword, vs, rfl, hkeyword⟩, override, hoverride, hreads⟩ :=
      hclass.reads rest stop
    rw [List.append_assoc]
    refine (hoverride.reads (by simp [hkeyword])).bind (Reads.kind.bind ?_)
    rw [List.cons_append, Cursor.kind_cons, hkeyword]
    exact hreads
  | forward hforward =>
    have hreads : Reads (classItem settings none) ⟨ts ++ rest, stop, n⟩ _ _ := hforward.reads
    cases hforward with
    | mk hkeyword =>
      simp only [List.cons_append, List.nil_append] at hreads ⊢
      refine (IsOverride.absent.reads (by simp [hkeyword])).bind (Reads.kind.bind ?_)
      rw [Cursor.kind_cons, hkeyword]
      exact hreads

/-- One turn of the loop over items. -/
theorem IsItem.reads_nextItem {settings : GrammarSettings} {nested : Bool} {k : Nat}
    {body : Parser (List Item)} (hbody : ReadsDerived settings k body) {ts : List Token}
    {read : Item} (h : IsItem settings n ts read n') (hopen : Open ⟨ts ++ rest, stop, n⟩)
    (short : (ts ++ rest).length ≤ k + 1)
    (follow : ∀ t ∈ ts, Unnamed t ⟨rest, stop, n'⟩) :
    Reads (nextItem settings nested body) ⟨ts ++ rest, stop, n⟩ (some (some read))
      ⟨rest, stop, n'⟩ := by
  have hreads := h.reads hbody hopen short follow
  obtain ⟨t, us, rfl, ht⟩ := h.first
  refine Reads.kind.bind ?_
  obtain ht | ht | ht := ht <;>
    rw [List.cons_append, Cursor.kind_cons, ht] <;>
    exact (reads_attempt_iff.mpr hreads).bind .pure

/-- The loop stops at the end of the file, and in a namespace at what closes it. -/
theorem EndsItems.reads_nextItem {settings : GrammarSettings} {nested : Bool}
    {body : Parser (List Item)} {c : Cursor} (h : EndsItems nested c) :
    Reads (nextItem settings nested body) c none c := by
  refine Reads.kind.bind ?_
  obtain ⟨ts, stop, n⟩ := c
  obtain hnil | ⟨rfl, hk | hk⟩ := h
  · rw [show ts = [] from hnil]
    exact .pure
  · rw [hk]
    exact .pure
  · rw [hk]
    exact .pure

/-- The loop over items goes through all of them, whatever depth `body` can read. -/
theorem IsItems.collects {settings : GrammarSettings} {nested : Bool} {k : Nat}
    {body : Parser (List Item)} (hbody : ReadsDerived settings k body) {ts : List Token}
    {items : List Item} (h : IsItems settings n ts items n') (hopen : Open ⟨ts ++ rest, stop, n⟩)
    (short : (ts ++ rest).length ≤ k + 1) (hends : EndsItems nested ⟨rest, stop, n'⟩) :
    Collects (nextItem settings nested body) ⟨ts ++ rest, stop, n⟩ (items.map some)
      ⟨rest, stop, n'⟩ := by
  -- on the list and not on the derivation: what is inside a namespace is left to `body`
  induction items generalizing n ts with
  | nil =>
    cases h with
    | nil => exact .stop hends.reads_nextItem
  | cons read items ih =>
    cases h with
    | @cons _ m _ ts us _ _ hitem hitems =>
      rw [List.append_assoc] at hopen short ⊢
      have taken : Cursor.Ahead ⟨ts ++ (us ++ rest), stop, n⟩ ts ⟨us ++ rest, stop, m⟩ := rfl
      have short' : (us ++ rest).length ≤ k + 1 := by
        simp only [List.length_append] at short ⊢
        omega
      -- a name here would be taken for the name of the namespace that is closed before it
      have follow : (⟨us ++ rest, stop, m⟩ : Cursor).kind ≠ .identifier := by
        cases hitems with
        | nil => exact hends.kind_ne_identifier
        | cons hnext =>
          obtain ⟨t, us, rfl, ht | ht | ht⟩ := hnext.first <;> simp [ht]
      exact .more (hitem.reads_nextItem hbody hopen short fun _ _ hk => absurd hk follow)
        (ih hitems (hopen.of_ahead taken) short')

/-- Items that are derived are read, with room enough for the namespaces among them. -/
theorem IsItems.reads_itemsWithin {settings : GrammarSettings} {nested : Bool}
    (ahead : List Token) {ts : List Token} {items : List Item} (h : IsItems settings n ts items n')
    (hopen : Open ⟨ts ++ rest, stop, n⟩) (hends : EndsItems nested ⟨rest, stop, n'⟩)
    (short : (ts ++ rest).length ≤ ahead.length) :
    Reads (itemsWithin settings nested ahead) ⟨ts ++ rest, stop, n⟩ items ⟨rest, stop, n'⟩ := by
  induction ahead generalizing nested n n' ts items rest stop with
  | nil =>
    cases h with
    | nil => exact .pure
    | cons hitem =>
      obtain ⟨t, us, rfl, -⟩ := hitem.first
      simp at short
  | cons t ahead ih =>
    have hbody : ReadsDerived settings ahead.length (itemsWithin settings true ahead) :=
      fun h hopen hends short => ih h hopen hends short
    have collected := (reads_nextItems_iff (readsItems_itemsWithin settings true ahead) hopen
      short).mpr (h.collects hbody hopen short hends)
    have all_read : (items.map some).filterMap id = items := by simp
    refine collected.bind ?_
    rw [all_read]
    exact .pure

/-- A file that is derived from the tokens before the end is read without a complaint. -/
theorem ofTokens_of_isFile {settings : GrammarSettings} {size : Nat} {tokens : List Token}
    {file : InterfaceFile} (h : IsFile settings (tokens.takeWhile (·.kind ≠ .endOfFile)) file) :
    InterfaceFile.ofTokens settings size tokens = .ok file := by
  obtain ⟨n, hitems⟩ := h
  have hopen : Open ⟨tokens.takeWhile (·.kind ≠ .endOfFile) ++ [],
      (InterfaceFile.beginning size tokens).upToEnd.stop, 0⟩ := by
    rw [List.append_nil]
    exact open_beginning size tokens
  have hread : Reads
      (itemsWithin settings false (InterfaceFile.beginning size tokens).upToEnd.rest)
      ⟨_, (InterfaceFile.beginning size tokens).upToEnd.stop, 0⟩ file.items ⟨[], _, n⟩ :=
    hitems.reads_itemsWithin _ hopen (.inl rfl) (Nat.le_of_eq (by rw [List.append_nil]; rfl))
  rw [List.append_nil] at hread
  exact ofTokens_eq_ok_iff.mpr ⟨_, hread⟩

/-- The parser accepts exactly the files that the grammar derives from the tokens before the end,
and answers with the tree of the derivation. -/
theorem ofTokens_eq_ok_iff_isFile (settings : GrammarSettings) (size : Nat) (tokens : List Token)
    (file : InterfaceFile) :
    InterfaceFile.ofTokens settings size tokens = .ok file ↔
      IsFile settings (tokens.takeWhile (·.kind ≠ .endOfFile)) file :=
  ⟨isFile_of_ofTokens, ofTokens_of_isFile⟩

end BindingIdl.Grammar

/-! ## Texts -/

namespace BindingIdl.InterfaceFile

/-- A text that cannot be cut into tokens is refused for that alone. -/
theorem ofText_eq (settings : GrammarSettings) (text : String) :
    ofText settings text = match Token.ofText text with
      | .error e => .error [e.diagnostic]
      | .ok tokens => ofTokens settings text.utf8ByteSize tokens := by
  unfold ofText tokensOf
  cases Token.ofText text <;> rfl

/-- A text whose tokens are derived is read as what they are derived for. -/
theorem ofText_of_isFile {settings : GrammarSettings} {text : String} {ts : List Token}
    {file : InterfaceFile} (htokens : Token.ofText text = .ok (ts ++ [Token.endOf text]))
    (h : Grammar.IsFile settings ts file) : ofText settings text = .ok file := by
  rw [ofText_eq, htokens]
  exact Grammar.ofTokens_of_isFile ((Token.takeWhile_of_ofText htokens).symm ▸ h)

end BindingIdl.InterfaceFile
