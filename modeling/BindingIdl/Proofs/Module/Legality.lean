import BindingIdl.Proofs.Module.Placement
import BindingIdl.Proofs.Symbol.Names

/-!
# Legal signatures

What the check asks of a class, said without a pass over it: `ClassDecl.Lawful`. Methods of one kind
have different names, every type is legal where it stands, no two constructors take the same
arguments, and, where the settings ask for it, no two constructors agree in arity and initials.

A run of the check classifies member by member and compares each constructor with those before it.
That it accepts the lawful classes follows from `Class.Lowers`. When it stops, it has found a pair
of members or a type that breaks a rule: `ClassDecl.Faulted` lists what it can say then.
`Module.ofFile_accepts_lawful` puts both together for a whole file.
-/

namespace BindingIdl

/-! ## The rules -/

/-- A builtin is plain, by value or by constant reference; nothing at all is only returned; a class
is neither changed through a reference nor shared through a pointer to a shared pointer. -/
def TypeExpr.Legal (position : TypePosition) (type : TypeExpr) : Prop :=
  match type.builtin? with
  | some b =>
    if b = .void then
      position = .returned ∧ type.wrapper = none ∧ type.indirection = .value ∧ type.isConst = false
    else
      type.wrapper = none ∧
        (type.indirection = .value ∨ (type.indirection = .reference ∧ type.isConst = true))
  | none => ¬ (type.indirection = .reference ∧ type.isConst = false) ∧
      ¬ (type.wrapper.isSome = true ∧ type.indirection = .pointer)

/-- What a legal argument type denotes. -/
def TypeExpr.argumentKind (type : TypeExpr) : TypeKind :=
  match type.builtin?, type.wrapper, type.indirection with
  | some b, _, _ => b.kind.kind
  | none, some _, _ => .sharedPointer
  | none, none, .value => .classValue
  | none, none, .reference => .classConstReference
  | none, none, .pointer => .rawPointer

/-- The path of a class that is named, or the name of a builtin. -/
def TypeExpr.resolved (table : SymbolTable) (type : TypeExpr) : QualifiedName :=
  match type.builtin? with
  | some _ => type.name
  | none => ((table.reference? type.id).map (·.path)).getD type.name

/-- The types of a member, each with its position. -/
def MemberDecl.uses : MemberDecl → List (TypePosition × TypeExpr)
  | constructor decl => decl.params.map fun p => (.argument, p.type)
  | method decl => (.returned, decl.returns) :: decl.params.map fun p => (.argument, p.type)

/-- The member as a constructor, if it is one. -/
def MemberDecl.constructor? : MemberDecl → Option ConstructorDecl
  | constructor decl => some decl
  | method _ => none

namespace ConstructorDecl

/-- The arguments of a constructor as overloading sees them. -/
def signature (table : SymbolTable) (decl : ConstructorDecl) : List (TypeKind × String) :=
  decl.params.map fun p => (p.type.argumentKind, (p.type.resolved table).text)

/-- The first letters of the argument types, without their namespaces. -/
def initials (table : SymbolTable) (decl : ConstructorDecl) : List Char :=
  decl.params.filterMap fun p => (p.type.resolved table).name.toList.head?

/-- Arity and initials, as in `2:dd`. -/
def key (table : SymbolTable) (decl : ConstructorDecl) : String :=
  toString decl.params.length ++ ":" ++ String.ofList (decl.initials table)

/-- Two constructors that generated code cannot tell apart. -/
def Alike (table : SymbolTable) (a b : ConstructorDecl) : Prop :=
  a.params.length = b.params.length ∧ a.initials table = b.initials table

end ConstructorDecl

namespace ClassDecl

/-- The methods of a class, static or not, in the order in which they are written. -/
def methods (decl : ClassDecl) : List MethodDecl := decl.members.filterMap MemberDecl.method?

/-- The constructors of a class in order; overloading is decided between them. -/
def constructors (decl : ClassDecl) : List ConstructorDecl :=
  decl.members.filterMap MemberDecl.constructor?

/-- A class that breaks no rule. -/
structure Lawful (table : SymbolTable) (settings : CheckSettings) (decl : ClassDecl) : Prop where
  methods : decl.methods.Pairwise fun a b => a.isStatic = b.isStatic → a.name ≠ b.name
  types : ∀ m ∈ decl.members, ∀ use ∈ m.uses, use.2.Legal use.1
  signatures : decl.constructors.Pairwise fun a b => a.signature table ≠ b.signature table
  tellable : settings.rejectAmbiguousConstructors = true →
    decl.constructors.Pairwise fun a b => ¬ a.Alike table b

/-- What can be said of a class that breaks a rule. -/
inductive Faulted (table : SymbolTable) (settings : CheckSettings) (decl : ClassDecl) :
    Diagnostic → Prop where
  | repeatedMethod {first again} : [first, again].Sublist decl.methods →
      first.isStatic = again.isStatic → first.name = again.name →
      Faulted table settings decl
        (.about again.span (.duplicateMember decl.name again.name first.span.extent))
  | illegalType {m position type fault} : m ∈ decl.members → (position, type) ∈ m.uses →
      ¬ type.Legal position →
      Faulted table settings decl
        (.about type.span (.invalidWrapping type.text (m.signature decl.name) fault))
  | repeatedConstructor {first again} : [first, again].Sublist decl.constructors →
      first.signature table = again.signature table →
      Faulted table settings decl
        (.about again.span (.duplicateMember decl.name decl.name first.span.extent))
  | ambiguousConstructor {first again} : settings.rejectAmbiguousConstructors = true →
      [first, again].Sublist decl.constructors → first.Alike table again →
      Faulted table settings decl
        (.about again.span (.ambiguousConstructor decl.name (again.key table)
          first.span.extent))

end ClassDecl

/-! ## Types -/

/-- A builtin is passed by value or by constant reference, and `void` is returned only. -/
theorem Builtin.exists_wrapping_iff {type : TypeExpr} {b : Builtin} (hb : type.builtin? = some b)
    (position : TypePosition) :
    (∃ wrapped, b.wrapping position type = .ok wrapped) ↔ type.Legal position := by
  unfold TypeExpr.Legal wrapping
  simp only [hb]
  cases hwrapper : type.wrapper with
  | some wrapper => by_cases hvoid : b = .void <;> simp [hvoid]
  | none =>
    by_cases hvoid : b = .void
    · cases position <;> cases type.indirection <;> cases type.isConst <;> simp [hvoid]
    · cases type.indirection <;> cases type.isConst <;> simp [hvoid]

/-- A class is passed in any way but by a reference that is not constant and by a pointer to a
shared pointer. -/
theorem exists_classWrapping_iff {type : TypeExpr} (hb : type.builtin? = none)
    (position : TypePosition) :
    (∃ wrapped, classWrapping position type = .ok wrapped) ↔ type.Legal position := by
  unfold TypeExpr.Legal classWrapping
  rw [hb]
  cases type.indirection <;> cases type.wrapper <;> cases type.isConst <;> cases position <;> simp

/-- A class name needs a meaning to be classified; beyond that the rule for types decides. -/
theorem TypeRef.exists_lowers_iff {table : SymbolTable} {position : TypePosition} {type : TypeExpr}
    (hbound : type.isClassReference = true → (table.reference? type.id).isSome = true) :
    (∃ r, TypeRef.Lowers table position type r) ↔ type.Legal position := by
  cases hb : type.builtin? with
  | some b =>
    rw [← Builtin.exists_wrapping_iff hb]
    constructor
    · rintro ⟨r, hr⟩
      cases hr with
      | builtin hb' hw =>
        obtain rfl := Option.some.inj (hb.symm.trans hb')
        exact ⟨_, hw⟩
      | reference hb' => rw [hb] at hb'; cases hb'
    · rintro ⟨wrapped, hw⟩
      exact ⟨_, .builtin hb hw⟩
  | none =>
    rw [← exists_classWrapping_iff hb]
    constructor
    · rintro ⟨r, hr⟩
      cases hr with
      | builtin hb' => rw [hb] at hb'; cases hb'
      | reference _ _ hw => exact ⟨_, hw⟩
    · rintro ⟨wrapped, hw⟩
      obtain ⟨reference, href⟩ :=
        Option.isSome_iff_exists.mp (hbound (TypeExpr.isClassReference_iff.mpr hb))
      exact ⟨_, .reference hb href hw⟩

/-- A classified type goes by what its reference was resolved to. -/
theorem TypeRef.Lowers.path {table : SymbolTable} {position : TypePosition} {type : TypeExpr}
    {r : TypeRef} (h : TypeRef.Lowers table position type r) : r.path = type.resolved table := by
  unfold TypeExpr.resolved
  cases h with
  | builtin hb =>
    rw [hb]
    have hbare : type.name.isQualified = false := by
      cases hq : type.name.isQualified with
      | false => rfl
      | true => rw [TypeExpr.builtin?, hq, if_pos rfl] at hb; cases hb
    exact (type.name.eq_bare hbare).symm
  | reference hb href =>
    rw [hb, href]
    rfl

theorem TypeRef.Lowers.argumentKind {table : SymbolTable} {type : TypeExpr} {r : TypeRef}
    (h : TypeRef.Lowers table .argument type r) : r.kind = type.argumentKind := by
  unfold TypeExpr.argumentKind
  cases h with
  | builtin hb hw =>
    rw [hb, TypeRef.ofBuiltin, (Builtin.wrapping_eq_ok hw).1]
  | reference hb _ hw =>
    rw [hb, TypeRef.ofReference]
    unfold classWrapping at hw
    revert hw
    cases type.indirection <;> cases type.wrapper <;> cases type.isConst <;> simp <;>
      (rintro rfl; rfl)

/-! ## Constructors -/

section

variable {table : SymbolTable}

theorem Argument.Lowers.exactKey {params : List ParameterDecl} {args : List Argument}
    (h : List.Forall₂ (Argument.Lowers (TypeRef.Lowers table)) params args) :
    args.map (fun arg => (arg.type.kind, arg.type.qualifiedName)) =
      params.map fun p => (p.type.argumentKind, (p.type.resolved table).text) := by
  induction h with
  | nil => rfl
  | cons harg _ ih =>
    rw [List.map_cons, List.map_cons, ih, harg.2.argumentKind, ← harg.2.path]
    rfl

/-- The initials are those of the resolved names, whatever was written. -/
theorem Argument.Lowers.initials {params : List ParameterDecl} {args : List Argument}
    (h : List.Forall₂ (Argument.Lowers (TypeRef.Lowers table)) params args) :
    args.filterMap (·.type.name.toList.head?) =
      params.filterMap fun p => (p.type.resolved table).name.toList.head? := by
  induction h with
  | nil => rfl
  | cons harg _ ih =>
    rw [List.filterMap_cons, List.filterMap_cons, ih, ← harg.2.path]
    rfl

/-- A constructor with its arguments classified. -/
def ConstructorDecl.Lowers (table : SymbolTable) (decl : ConstructorDecl) (c : Constructor) :
    Prop :=
  List.Forall₂ (Argument.Lowers (TypeRef.Lowers table)) decl.params c.args

namespace ConstructorDecl

variable {decl a b : ConstructorDecl} {c : Constructor}

/-- Constructors are compared by the kinds and the resolved names of their arguments. -/
theorem Lowers.exactKey (h : decl.Lowers table c) : c.exactKey = decl.signature table :=
  Argument.Lowers.exactKey h

/-- What is quoted in a complaint about them is arity and initials. -/
theorem Lowers.key (h : decl.Lowers table c) : c.key = decl.key table := by
  rw [Constructor.key, ConstructorDecl.key, h.length_eq, initials, Argument.Lowers.initials h]

/-- The text of a key gives back arity and initials. -/
theorem key_eq_iff : a.key table = b.key table ↔ a.Alike table b := by
  have colon_notMem (n : Nat) : ':' ∉ (toString n).toList := by
    rw [Nat.toString_eq_repr, Nat.toList_repr]
    intro hmem
    have := Nat.isDigit_of_mem_toDigits (by decide) (by decide) hmem
    exact absurd this (by decide)
  constructor
  · intro h
    have hlist := congrArg String.toList h
    simp only [key, String.toList_append, String.toList_ofList, List.append_assoc] at hlist
    obtain ⟨harity, hinitials⟩ := append_colon_inj (colon_notMem _) (colon_notMem _) hlist
    refine ⟨?_, hinitials⟩
    rw [Nat.toString_eq_repr, Nat.toString_eq_repr, Nat.toList_repr, Nat.toList_repr] at harity
    have hread := congrArg (Nat.ofDigitChars 10 · 0) harity
    rwa [Nat.ofDigitChars_toDigits (by decide) (by decide),
      Nat.ofDigitChars_toDigits (by decide) (by decide)] at hread
  · rintro ⟨harity, hinitials⟩
    rw [key, key, harity, hinitials]

end ConstructorDecl

/-- The constructors of a class are those of its declaration, one by one. -/
theorem Member.Lowers.constructors {ds : List MemberDecl} {ms : List Member}
    (h : List.Forall₂ (Member.Lowers (TypeRef.Lowers table)) ds ms) :
    List.Forall₂ (ConstructorDecl.Lowers table) (ds.filterMap MemberDecl.constructor?)
      (ms.filterMap Member.constructor?) := by
  refine List.rel_filterMap (fun d m hm => ?_) h
  cases hm with
  | constructor hargs => exact .some hargs
  | method => exact .none
  | staticMethod => exact .none

/-- The check of two modelled constructors is the rule on what was written of them. -/
theorem Constructor.apart_iff {settings : CheckSettings} {a b : ConstructorDecl}
    {c d : Constructor} (ha : a.Lowers table c) (hb : b.Lowers table d) :
    Constructor.Apart settings c d ↔ a.signature table ≠ b.signature table ∧
      (settings.rejectAmbiguousConstructors = true → ¬ a.Alike table b) := by
  rw [Constructor.Apart, ha.exactKey, hb.exactKey, ha.key, hb.key, ne_eq (a.key table),
    ConstructorDecl.key_eq_iff]

end

/-! ## Lawful classes are accepted -/

/-- The class names of a class have a meaning. -/
def ClassDecl.Bound (table : SymbolTable) (decl : ClassDecl) : Prop :=
  ∀ type ∈ decl.types, type.isClassReference = true → (table.reference? type.id).isSome = true

section

variable {table : SymbolTable} {settings : CheckSettings}

theorem MemberDecl.types_eq_uses (m : MemberDecl) : m.types = m.uses.map Prod.snd := by
  cases m <;> simp [types, uses]

/-- A list of parameters is classified if and only if each of its types is legal. -/
theorem Argument.exists_lowers_iff (params : List ParameterDecl)
    (hbound : ∀ p ∈ params, p.type.isClassReference = true →
      (table.reference? p.type.id).isSome = true) :
    (∃ args, List.Forall₂ (Argument.Lowers (TypeRef.Lowers table)) params args) ↔
      ∀ p ∈ params, p.type.Legal .argument := by
  rw [exists_forall₂_iff]
  refine forall₂_congr fun p hp => ?_
  rw [← TypeRef.exists_lowers_iff (hbound p hp)]
  constructor
  · rintro ⟨arg, -, htype⟩
    exact ⟨arg.type, htype⟩
  · rintro ⟨r, hr⟩
    exact ⟨⟨p.name, r⟩, rfl, hr⟩

/-- A member is classified if and only if its types are legal in their places. -/
theorem Member.exists_lowers_iff {m : MemberDecl}
    (hbound : ∀ type ∈ m.types, type.isClassReference = true →
      (table.reference? type.id).isSome = true) :
    (∃ c, Member.Lowers (TypeRef.Lowers table) m c) ↔ ∀ use ∈ m.uses, use.2.Legal use.1 := by
  cases m with
  | constructor decl =>
    have hargs := Argument.exists_lowers_iff decl.params fun p hp =>
      hbound _ (List.mem_map_of_mem hp)
    simp only [MemberDecl.uses, List.forall_mem_map]
    rw [← hargs]
    constructor
    · rintro ⟨c, hc⟩
      cases hc with
      | constructor hargs => exact ⟨_, hargs⟩
    · rintro ⟨args, hargs⟩
      exact ⟨_, .constructor hargs⟩
  | method decl =>
    have hargs := Argument.exists_lowers_iff decl.params fun p hp =>
      hbound _ (List.mem_cons_of_mem _ (List.mem_map_of_mem hp))
    have hreturns : (∃ r, TypeRef.Lowers table .returned decl.returns r) ↔
        decl.returns.Legal .returned :=
      TypeRef.exists_lowers_iff (hbound decl.returns List.mem_cons_self)
    simp only [MemberDecl.uses, List.forall_mem_cons, List.forall_mem_map]
    rw [← hargs, ← hreturns]
    constructor
    · rintro ⟨c, hc⟩
      cases hc with
      | method _ hargs hreturns => exact ⟨⟨_, hreturns⟩, _, hargs⟩
      | staticMethod _ hargs hreturns => exact ⟨⟨_, hreturns⟩, _, hargs⟩
    · rintro ⟨⟨returns, hreturns⟩, args, hargs⟩
      -- which of the two forms it is does not matter for the types
      cases hstatic : decl.isStatic with
      | true => exact ⟨_, .staticMethod hstatic hargs hreturns⟩
      | false => exact ⟨_, .method hstatic hargs hreturns⟩

/-- Static methods and others may share a name. -/
theorem ClassDecl.nodup_keys_iff {decl : ClassDecl} :
    (decl.members.filterMap fun m => m.method?.map MethodDecl.key).Nodup ↔
      decl.methods.Pairwise fun a b => a.isStatic = b.isStatic → a.name ≠ b.name := by
  rw [← List.map_filterMap, List.Nodup, List.pairwise_map, methods]
  simp [MethodDecl.key]

/-- Overloading is checked on modelled members, and the rule is about what was written. -/
theorem ClassDecl.pairwise_apart_iff {decl : ClassDecl} {ms : List Member}
    (h : List.Forall₂ (Member.Lowers (TypeRef.Lowers table)) decl.members ms) :
    (ms.filterMap Member.constructor?).Pairwise (Constructor.Apart settings) ↔
      (decl.constructors.Pairwise fun a b => a.signature table ≠ b.signature table) ∧
      (settings.rejectAmbiguousConstructors = true →
        decl.constructors.Pairwise fun a b => ¬ a.Alike table b) := by
  rw [← pairwise_iff_of_forall₂ (Member.Lowers.constructors h)
    fun a c b d hac hbd => (Constructor.apart_iff hac hbd).symm, List.pairwise_and_iff]
  refine and_congr_right fun _ => ?_
  constructor
  · intro h hreject
    exact h.imp fun hapart => hapart hreject
  · intro h
    by_cases hreject : settings.rejectAmbiguousConstructors = true
    · exact (h hreject).imp fun hapart _ => hapart
    · exact List.pairwise_of_forall fun _ _ h => absurd h hreject

/-- A class is accepted, wherever it stands, when it is lawful. -/
theorem ClassDecl.exists_lowers_iff_lawful {decl : ClassDecl} (hbound : decl.Bound table)
    (scope : List String) (inherited : Option String) :
    (∃ c, Class.Lowers (TypeRef.Lowers table) settings scope inherited decl c) ↔
      decl.Lawful table settings := by
  have hmembers : (∃ ms, List.Forall₂ (Member.Lowers (TypeRef.Lowers table)) decl.members ms) ↔
      ∀ m ∈ decl.members, ∀ use ∈ m.uses, use.2.Legal use.1 := by
    rw [exists_forall₂_iff]
    refine forall₂_congr fun m hm => Member.exists_lowers_iff fun type htype => ?_
    exact hbound type (List.mem_flatMap.mpr ⟨m, hm, htype⟩)
  constructor
  · rintro ⟨c, hc⟩
    obtain ⟨hsignatures, htellable⟩ := (pairwise_apart_iff hc.members).mp hc.constructors
    exact ⟨nodup_keys_iff.mp hc.methods, hmembers.mp ⟨_, hc.members⟩, hsignatures, htellable⟩
  · intro h
    obtain ⟨ms, hms⟩ := hmembers.mpr h.types
    have hapart := (pairwise_apart_iff hms).mpr ⟨h.signatures, h.tellable⟩
    exact ⟨⟨decl.name, scope, _, _, false, ms⟩, rfl, rfl, rfl, rfl, rfl, hms,
      nodup_keys_iff.mpr h.methods, hapart⟩

end

/-! ## What the check says of other classes -/

/-- The pair that is found agrees, and its first is an earlier one. -/
theorem firstRepeat?_eq_some {α κ : Type} [DecidableEq κ] {key : α → κ} {seen as : List α}
    {first again : α} (h : firstRepeat? key seen as = some (first, again)) :
    key first = key again ∧ ((first ∈ seen ∧ again ∈ as) ∨ [first, again].Sublist as) := by
  induction as generalizing seen with
  | nil => cases h
  | cons a as ih =>
    rw [firstRepeat?] at h
    cases hfound : seen.find? (key · = key a) with
    | some found =>
      rw [hfound] at h
      obtain ⟨rfl, rfl⟩ := Prod.mk.inj (Option.some.inj h)
      have hkey : key found = key a := by simpa using List.find?_some hfound
      exact ⟨hkey, .inl ⟨List.mem_of_find?_eq_some hfound, List.mem_cons_self⟩⟩
    | none =>
      rw [hfound] at h
      obtain ⟨hkey, hplace⟩ := ih h
      refine ⟨hkey, ?_⟩
      rcases hplace with ⟨hseen, hagain⟩ | hsub
      · rcases List.mem_cons.mp hseen with rfl | hseen
        · exact .inr ((List.singleton_sublist.mpr hagain).cons_cons _)
        · exact .inl ⟨hseen, List.mem_cons_of_mem _ hagain⟩
      · exact .inr (hsub.cons _)

section

variable {table : SymbolTable} {settings : CheckSettings} {decl : ClassDecl} {e : Diagnostic}

/-- A repeated method is reported where it is repeated, with the place of the first. -/
theorem ClassDecl.faulted_of_repeatedMethod? (h : decl.repeatedMethod? = some e) :
    decl.Faulted table settings e := by
  obtain ⟨⟨first, again⟩, hrepeat, rfl⟩ := Option.map_eq_some_iff.mp h
  obtain ⟨hkey, ⟨hseen, -⟩ | hsub⟩ := firstRepeat?_eq_some hrepeat
  · exact absurd hseen List.not_mem_nil
  · obtain ⟨hstatic, hname⟩ := Prod.mk.inj hkey
    exact .repeatedMethod hsub hstatic hname

/-- A type is refused where it is written, and only if its place does not allow it. -/
theorem TypeRef.classify_eq_error {owner : String} {m : MemberDecl} {position : TypePosition}
    {type : TypeExpr} (hbound : type.isClassReference = true →
      (table.reference? type.id).isSome = true)
    (h : classify table owner m position type = .error e) :
    ¬ type.Legal position ∧ ∃ fault,
      e = .about type.span (.invalidWrapping type.text (m.signature owner) fault) := by
  constructor
  · intro hlegal
    obtain ⟨r, hr⟩ := (TypeRef.exists_lowers_iff hbound).mpr hlegal
    rw [TypeRef.classify_eq_ok_iff.mpr hr] at h
    cases h
  · unfold classify at h
    split at h
    · split at h
      · cases h
      · cases h
        exact ⟨_, rfl⟩
    · -- a class name has a meaning, so only the rule for classes can refuse it
      rename_i hbuiltin
      obtain ⟨reference, href⟩ :=
        Option.isSome_iff_exists.mp (hbound (TypeExpr.isClassReference_iff.mpr hbuiltin))
      rw [href] at h
      dsimp only at h
      split at h
      · cases h
      · cases h
        exact ⟨_, rfl⟩

/-- A type that is refused is a use of the member that breaks the rule for types. -/
theorem ClassDecl.faulted_of_classify {m : MemberDecl} (hbound : decl.Bound table)
    (hm : m ∈ decl.members) {position : TypePosition} {type : TypeExpr}
    (huse : (position, type) ∈ m.uses)
    (h : TypeRef.classify table decl.name m position type = .error e) :
    decl.Faulted table settings e := by
  have htype : type ∈ decl.types := by
    refine List.mem_flatMap.mpr ⟨m, hm, ?_⟩
    rw [m.types_eq_uses]
    exact List.mem_map_of_mem huse
  obtain ⟨hillegal, fault, rfl⟩ := TypeRef.classify_eq_error (hbound type htype) h
  exact .illegalType hm huse hillegal

theorem ClassDecl.faulted_of_arguments {m : MemberDecl} (hbound : decl.Bound table)
    (hm : m ∈ decl.members) (h : Argument.classifyAll table decl.name m = .error e) :
    decl.Faulted table settings e := by
  obtain ⟨before, p, after, hparams, -, hp⟩ := Except.mapM_eq_error_iff.mp h
  have huse : (TypePosition.argument, p.type) ∈ m.uses := by
    have hmem : p ∈ m.params := hparams ▸ List.mem_append_right _ List.mem_cons_self
    cases m with
    | constructor => exact List.mem_map.mpr ⟨p, hmem, rfl⟩
    | method => exact List.mem_cons_of_mem _ (List.mem_map.mpr ⟨p, hmem, rfl⟩)
  rcases Except.bind_eq_error_iff.mp hp with hp | ⟨_, -, hp⟩
  · exact faulted_of_classify hbound hm huse hp
  · cases hp

/-- A constructor that has been let in, as the declaration it came from. -/
structure PlacedConstructor.Of (table : SymbolTable) (decl : ConstructorDecl)
    (placed : PlacedConstructor) : Prop where
  span : placed.span = decl.span
  lowers : decl.Lowers table placed.decl

/-- A constructor clashes with one before it. -/
theorem ClassDecl.faulted_of_clash? {before : List ConstructorDecl} {again : ConstructorDecl}
    {earlier : List PlacedConstructor} {this : PlacedConstructor}
    (hbefore : (before ++ [again]).Sublist decl.constructors)
    (hearlier : List.Forall₂ (PlacedConstructor.Of table) before earlier)
    (hthis : this.Of table again) (h : this.clash? settings decl.name earlier = some e) :
    decl.Faulted table settings e := by
  -- what has been seen stands in front, in the order of the class
  have hpair {first : ConstructorDecl} (hfirst : first ∈ before) :
      [first, again].Sublist decl.constructors :=
    ((List.singleton_sublist.mpr hfirst).append (List.Sublist.refl [again])).trans hbefore
  unfold PlacedConstructor.clash? at h
  split at h
  · rename_i placed hfound
    cases h
    obtain ⟨first, hfirst, hof⟩ := exists_of_forall₂ hearlier (List.mem_of_find?_eq_some hfound)
    have hkey : placed.decl.exactKey = this.decl.exactKey := by simpa using List.find?_some hfound
    rw [hof.lowers.exactKey, hthis.lowers.exactKey] at hkey
    rw [hthis.span, hof.span]
    exact .repeatedConstructor (hpair hfirst) hkey
  · split at h
    · rename_i hreject
      obtain ⟨placed, hfound, rfl⟩ := Option.map_eq_some_iff.mp h
      obtain ⟨first, hfirst, hof⟩ := exists_of_forall₂ hearlier (List.mem_of_find?_eq_some hfound)
      have hkey : placed.decl.key = this.decl.key := by simpa using List.find?_some hfound
      rw [hof.lowers.key, hthis.lowers.key, ConstructorDecl.key_eq_iff] at hkey
      rw [hthis.span, hof.span, hthis.lowers.key]
      exact .ambiguousConstructor hreject (hpair hfirst) hkey
    · cases h

/-- What ends the pass over the members is a fault of the class. The induction is on the members
that are left; those passed are in front of them, and `earlier` holds their constructors. -/
theorem ClassDecl.faulted_of_members (hbound : decl.Bound table) {passed rest : List MemberDecl}
    (hmembers : decl.members = passed ++ rest) {earlier : List PlacedConstructor}
    (hearlier : List.Forall₂ (PlacedConstructor.Of table)
      (passed.filterMap MemberDecl.constructor?) earlier)
    (h : Member.classifyAll table settings decl.name earlier rest = .error e) :
    decl.Faulted table settings e := by
  induction rest generalizing passed earlier with
  | nil => cases h
  | cons m rest ih =>
    have hm : m ∈ decl.members := hmembers ▸ List.mem_append_right _ List.mem_cons_self
    -- what has been passed is in front, so a clash is with an earlier constructor
    have hmembers' : decl.members = passed ++ [m] ++ rest := by simp [hmembers]
    cases m with
    | constructor again =>
      rw [Member.classifyAll, Except.bind_eq_error_iff] at h
      rcases h with h | ⟨args, hargs, h⟩
      · exact faulted_of_arguments hbound hm h
      · have hthis : PlacedConstructor.Of table again ⟨⟨args⟩, again.span⟩ :=
          ⟨rfl, Argument.classifyAll_eq_ok_iff.mp hargs⟩
        dsimp only at h
        split at h
        · rename_i clash hclash
          cases h
          refine faulted_of_clash? ?_ hearlier hthis hclash
          rw [constructors, hmembers', List.filterMap_append, List.filterMap_append]
          exact List.sublist_append_left _ _
        · rcases Except.bind_eq_error_iff.mp h with h | ⟨_, -, h⟩
          · refine ih hmembers' ?_ h
            rw [List.filterMap_append]
            exact List.rel_append hearlier (.cons hthis .nil)
          · cases h
    | method m =>
      rw [Member.classifyAll, Except.bind_eq_error_iff] at h
      rcases h with h | ⟨args, -, h⟩
      · exact faulted_of_arguments hbound hm h
      · rcases Except.bind_eq_error_iff.mp h with h | ⟨returns, -, h⟩
        · exact faulted_of_classify hbound hm List.mem_cons_self h
        · rcases Except.bind_eq_error_iff.mp h with h | ⟨_, -, h⟩
          · refine ih hmembers' ?_ h
            rwa [List.filterMap_append, List.filterMap_cons_none rfl, List.filterMap_nil,
              List.append_nil]
          · cases h

/-- Whatever stops a class is one of the faults, and is reported about one of its parts. -/
theorem ClassDecl.faulted_of_ofDecl (hbound : decl.Bound table) {scope : List String}
    {inherited : Option String}
    (h : Class.ofDecl table settings scope inherited decl = .error e) :
    decl.Faulted table settings e := by
  unfold Class.ofDecl at h
  split at h
  · rename_i clash hrepeated
    cases h
    exact faulted_of_repeatedMethod? hrepeated
  · rcases Except.bind_eq_error_iff.mp h with h | ⟨_, -, h⟩
    · exact faulted_of_members hbound (List.nil_append _).symm .nil h
    · cases h

end

/-! ## Files -/

/-- Where names resolve, a file is accepted when each of its classes is lawful; otherwise the first
class that is not, in the order of the file, is what the diagnostic is about. -/
theorem Module.ofFile_accepts_lawful (settings : CheckSettings) {file : InterfaceFile}
    {table : SymbolTable} (htable : SymbolTable.ofFile file = .ok table) :
    ((∃ m, Module.ofFile settings table file = .ok m) ↔
      ∀ d ∈ file.definitions, d.decl.Lawful table settings) ∧
    ∀ e, Module.ofFile settings table file = .error e →
      ∃ before d after, file.definitions = before ++ d :: after ∧
        (∀ b ∈ before, b.decl.Lawful table settings) ∧ ¬ d.decl.Lawful table settings ∧
        d.decl.Faulted table settings e := by
  have hbound (p : Placement) (hp : p ∈ file.placements) : p.decl.Bound table :=
    fun type htype => SymbolTable.isSome_reference?_of_ofFile htable
      (InterfaceFile.mem_definitions_of_placement hp) htype
  have hlawful (p : Placement) (hp : p ∈ file.placements) :
      (∃ c, p.classify table settings = .ok c) ↔ p.decl.Lawful table settings := by
    simp only [Placement.classify, Class.ofDecl_eq_ok_iff]
    exact ClassDecl.exists_lowers_iff_lawful (hbound p hp) _ _
  -- the check goes through placements, the statement through definitions
  rw [file.definitions_eq_placements]
  constructor
  · rw [exists_ofFile_eq_ok_iff, List.forall_mem_map]
    exact forall₂_congr hlawful
  · intro e he
    obtain ⟨before, p, after, hplacements, hbefore, hp⟩ :=
      Except.mapM_eq_error_iff.mp (ofFile_eq_error_iff.mp he)
    have hmem : p ∈ file.placements := hplacements ▸ List.mem_append_right _ List.mem_cons_self
    refine ⟨before.map Placement.definition, p.definition, after.map Placement.definition,
      ?_, ?_, ?_, ?_⟩
    · rw [hplacements, List.map_append, List.map_cons]
    · rw [List.forall_mem_map]
      intro b hb
      exact (hlawful b (hplacements ▸ List.mem_append_left _ hb)).mp (hbefore b hb)
    · intro h
      obtain ⟨c, hc⟩ := (hlawful p hmem).mpr h
      rw [hp] at hc
      cases hc
    · exact ClassDecl.faulted_of_ofDecl (hbound p hmem) hp

/-- Two constructors of `Ray` agree in arity and initials, which is refused on demand only. Those of
`Line` in front of it differ in their initials. -/
def rayFile : InterfaceFile :=
  let span : Span := ⟨0, 1, 1⟩
  let constructor (id : NodeId) (name : String) : MemberDecl :=
    .constructor ⟨id, [⟨id + 1, "x", ⟨id + 2, false, .bare name, none, .value, span⟩⟩], span⟩
  ⟨[.definition ⟨0, "Line", none, [constructor 1 "double", constructor 4 "int"], span⟩,
    .definition ⟨7, "Ray", none, [constructor 8 "string", constructor 11 "size_t"], span⟩]⟩

/-- The same file without the demand and with it: no class is at fault, then one is. -/
theorem Module.rayFile_accepts_lawful :
    ∃ table, SymbolTable.ofFile rayFile = .ok table ∧
      (∀ d ∈ rayFile.definitions, d.decl.Lawful table ⟨false⟩) ∧
      ∃ e, Module.ofFile ⟨true⟩ table rayFile = .error e ∧
        ∃ before d after, rayFile.definitions = before ++ d :: after ∧
          (∀ b ∈ before, b.decl.Lawful table ⟨true⟩) ∧ ¬ d.decl.Lawful table ⟨true⟩ ∧
          d.decl.Faulted table ⟨true⟩ e := by
  have haccepted : (rayFile.module ⟨false⟩).toOption.isSome = true := by decide +kernel
  have hrefused : (rayFile.module ⟨true⟩).toOption = none := by decide +kernel
  cases htable : SymbolTable.ofFile rayFile with
  | error d => rw [InterfaceFile.module, htable] at haccepted; cases haccepted
  | ok table =>
    have hmodule (settings : CheckSettings) :
        rayFile.module settings = Module.ofFile settings table rayFile := by
      rw [InterfaceFile.module, htable]
      rfl
    rw [hmodule] at haccepted hrefused
    refine ⟨table, rfl, ?_, ?_⟩
    · apply (ofFile_accepts_lawful ⟨false⟩ htable).1.mp
      cases hm : Module.ofFile ⟨false⟩ table rayFile with
      | error e => rw [hm] at haccepted; cases haccepted
      | ok m => exact ⟨m, rfl⟩
    · cases hm : Module.ofFile ⟨true⟩ table rayFile with
      | ok m => rw [hm] at hrefused; cases hrefused
      | error e => exact ⟨e, rfl, (ofFile_accepts_lawful ⟨true⟩ htable).2 e hm⟩

end BindingIdl
