import BindingIdl.Module.Classification
import BindingIdl.Proofs.Symbol.Resolution
import Mathlib.Data.List.Forall2

/-!
# Classification as a relation

`Item.classifyAll` stops at the first fault; where it does not stop, it relates items and tree part
by part. The relations here are those parts: `TypeRef.Lowers` for a type, `Member.Lowers` for a
member, `Class.Lowers` for a class with what keeps its members apart, and `Module.Lowers` for a list
of items. Each comes with the equivalence that ties it to the function.

The order of classes and namespaces is that of `Module.Lowers`; which classes there are, whatever
the order, is `Module.Lowers.allClasses`.
-/

namespace BindingIdl

/-! ## Steps that may fail -/

namespace Except

variable {ε α β : Type}

/-- A chain answers if both of its steps do. -/
theorem bind_eq_ok_iff {x : Except ε α} {f : α → Except ε β} {b : β} :
    x >>= f = .ok b ↔ ∃ a, x = .ok a ∧ f a = .ok b := by
  cases x <;> simp [Bind.bind, Except.bind]

theorem pure_eq_ok_iff {a b : α} : (pure a : Except ε α) = .ok b ↔ b = a := by
  simp [Pure.pure, Except.pure, eq_comm]

/-- A list is answered element by element. -/
theorem mapM_eq_ok_iff {f : α → Except ε β} {as : List α} {bs : List β} :
    as.mapM f = .ok bs ↔ List.Forall₂ (fun a b => f a = .ok b) as bs := by
  induction as generalizing bs with
  | nil => simp [pure_eq_ok_iff]
  | cons a as ih =>
    simp only [List.mapM_cons, bind_eq_ok_iff, pure_eq_ok_iff, List.forall₂_cons_left_iff, ih]
    constructor
    · rintro ⟨b, hb, bs, hbs, rfl⟩
      exact ⟨b, bs, hb, hbs, rfl⟩
    · rintro ⟨b, bs, hb, hbs, rfl⟩
      exact ⟨b, hb, bs, hbs, rfl⟩

/-- A chain fails with its first step, or behind it. -/
theorem bind_eq_error_iff {x : Except ε α} {f : α → Except ε β} {e : ε} :
    x >>= f = .error e ↔ x = .error e ∨ ∃ a, x = .ok a ∧ f a = .error e := by
  cases x <;> simp [Bind.bind, Except.bind]

/-- What is computed with the failure left out. -/
theorem eq_ok_of_toOption {x : Except ε α} {a : α} (h : x.toOption = some a) : x = .ok a := by
  cases x with
  | error e => cases h
  | ok b => rw [Option.some.inj h]

theorem eq_ok_of_mapError {ε' : Type} {f : ε → ε'} {x : Except ε α} {a : α}
    (h : x.mapError f = .ok a) : x = .ok a := by
  cases x with
  | error e => cases h
  | ok b =>
    cases h
    rfl

/-- What fails in the same cases succeeds in the same cases. -/
theorem exists_ok_iff_of_error_iff {x : Except ε α} {y : Except ε β}
    (h : ∀ e, x = .error e ↔ y = .error e) : (∃ a, x = .ok a) ↔ ∃ b, y = .ok b := by
  cases x with
  | error e => simp [(h e).mp rfl]
  | ok a =>
    cases y with
    | error e => cases (h e).mpr rfl
    | ok b => simp

/-- The first failure along a list is the one that is answered. -/
theorem mapM_cons_eq_error_iff {f : α → Except ε β} {a : α} {as : List α} {e : ε} :
    (a :: as).mapM f = .error e ↔
      f a = .error e ∨ (∃ b, f a = .ok b) ∧ as.mapM f = .error e := by
  rw [List.mapM_cons, bind_eq_error_iff]
  refine or_congr_right ?_
  simp only [bind_eq_error_iff, Pure.pure, Except.pure, reduceCtorEq, and_false, exists_false,
    or_false, exists_and_right]

/-- A traversal fails with the first element that does. -/
theorem mapM_eq_error_iff {f : α → Except ε β} {as : List α} {e : ε} :
    as.mapM f = .error e ↔ ∃ before a after, as = before ++ a :: after ∧
      (∀ b ∈ before, ∃ c, f b = .ok c) ∧ f a = .error e := by
  induction as with
  | nil =>
    simp only [List.mapM_nil, Pure.pure, Except.pure, reduceCtorEq, false_iff]
    rintro ⟨before, a, after, has, -⟩
    cases before <;> cases has
  | cons a as ih =>
    rw [mapM_cons_eq_error_iff, ih]
    constructor
    · rintro (ha | ⟨ha, before, b, after, rfl, hbefore, hb⟩)
      · exact ⟨[], a, as, rfl, fun b hb => absurd hb List.not_mem_nil, ha⟩
      · refine ⟨a :: before, b, after, rfl, fun c hc => ?_, hb⟩
        obtain rfl | hc := List.mem_cons.mp hc
        · exact ha
        · exact hbefore c hc
    · rintro ⟨before, b, after, has, hbefore, hb⟩
      cases before with
      | nil =>
        obtain ⟨rfl, rfl⟩ := List.cons.inj has
        exact .inl hb
      | cons c before =>
        obtain ⟨rfl, rfl⟩ := List.cons.inj has
        exact .inr ⟨hbefore a List.mem_cons_self, before, b, after, rfl,
          fun c hc => hbefore c (List.mem_cons_of_mem _ hc), hb⟩

theorem mapM_append_eq_error_iff {f : α → Except ε β} {as bs : List α} {e : ε} :
    (as ++ bs).mapM f = .error e ↔
      as.mapM f = .error e ∨ (∃ cs, as.mapM f = .ok cs) ∧ bs.mapM f = .error e := by
  rw [List.mapM_append, bind_eq_error_iff]
  refine or_congr_right ?_
  simp only [bind_eq_error_iff, Pure.pure, Except.pure, reduceCtorEq, and_false, exists_false,
    or_false, exists_and_right]

end Except

theorem exists_of_forall₂ {α β : Type} {R : α → β → Prop} {as : List α} {bs : List β}
    (h : List.Forall₂ R as bs) {b : β} (hb : b ∈ bs) : ∃ a ∈ as, R a b := by
  induction h with
  | nil => exact absurd hb List.not_mem_nil
  | cons hab _ ih =>
    obtain rfl | hb := List.mem_cons.mp hb
    · exact ⟨_, List.mem_cons_self, hab⟩
    · obtain ⟨a, ha, hab⟩ := ih hb
      exact ⟨a, List.mem_cons_of_mem _ ha, hab⟩

theorem exists_forall₂_iff {α β : Type} {R : α → β → Prop} {as : List α} :
    (∃ bs, List.Forall₂ R as bs) ↔ ∀ a ∈ as, ∃ b, R a b := by
  constructor
  · rintro ⟨bs, hbs⟩ a ha
    obtain ⟨b, -, hb⟩ := exists_of_forall₂ hbs.flip ha
    exact ⟨b, hb⟩
  · intro h
    induction as with
    | nil => exact ⟨[], .nil⟩
    | cons a as ih =>
      obtain ⟨b, hb⟩ := h a List.mem_cons_self
      obtain ⟨bs, hbs⟩ := ih fun a' ha' => h a' (List.mem_cons_of_mem _ ha')
      exact ⟨b :: bs, .cons hb hbs⟩

/-- A traversal succeeds when every element does. -/
theorem Except.exists_mapM_eq_ok_iff {ε α β : Type} {f : α → Except ε β} {as : List α} :
    (∃ bs, as.mapM f = .ok bs) ↔ ∀ a ∈ as, ∃ b, f a = .ok b := by
  simp only [mapM_eq_ok_iff, exists_forall₂_iff]

theorem forall₂_imp_of_mem {α β : Type} {R S : α → β → Prop} {as : List α} {bs : List β}
    (h : List.Forall₂ R as bs) (himp : ∀ a ∈ as, ∀ b ∈ bs, R a b → S a b) :
    List.Forall₂ S as bs := by
  induction h with
  | nil => exact .nil
  | cons hab _ ih =>
    refine .cons (himp _ List.mem_cons_self _ List.mem_cons_self hab) (ih fun a ha b hb => ?_)
    exact himp a (List.mem_cons_of_mem _ ha) b (List.mem_cons_of_mem _ hb)

/-- What is said of pairs carries over where the relation carries it over for each pair. -/
theorem pairwise_iff_of_forall₂ {α β : Type} {R : α → β → Prop} {P : α → α → Prop}
    {Q : β → β → Prop} {as : List α} {bs : List β} (h : List.Forall₂ R as bs)
    (hPQ : ∀ a b a' b', R a b → R a' b' → (P a a' ↔ Q b b')) :
    as.Pairwise P ↔ bs.Pairwise Q := by
  induction h with
  | nil => simp
  | @cons a b as bs hab hrest ih =>
    rw [List.pairwise_cons, List.pairwise_cons, ih]
    refine and_congr_left fun _ => ⟨fun hP b' hb' => ?_, fun hQ a' ha' => ?_⟩
    · obtain ⟨a', ha', hR⟩ := exists_of_forall₂ hrest hb'
      exact (hPQ _ _ _ _ hab hR).mp (hP a' ha')
    · obtain ⟨b', hb', hR⟩ := exists_of_forall₂ hrest.flip ha'
      exact (hPQ _ _ _ _ hab hR).mpr (hQ b' hb')

/-! ## Types and members -/

/-- What a type is classified as. -/
inductive TypeRef.Lowers (table : SymbolTable) (position : TypePosition) (type : TypeExpr) :
    TypeRef → Prop where
  | builtin {b wrapped} : type.builtin? = some b → b.wrapping position type = .ok wrapped →
      Lowers table position type (.ofBuiltin wrapped type.name.name)
  | reference {reference wrapped} : type.builtin? = none →
      table.reference? type.id = some reference → classWrapping position type = .ok wrapped →
      Lowers table position type (.ofReference wrapped position reference)

/-- A type is classified as what `TypeRef.Lowers` relates it to. -/
theorem TypeRef.classify_eq_ok_iff {table : SymbolTable} {owner : String} {member : MemberDecl}
    {position : TypePosition} {type : TypeExpr} {r : TypeRef} :
    classify table owner member position type = .ok r ↔ Lowers table position type r := by
  unfold classify
  constructor
  · intro h
    split at h
    · rename_i b hb
      cases hw : b.wrapping position type with
      | error fault => rw [hw] at h; cases h
      | ok wrapped =>
        rw [hw] at h
        cases h
        exact .builtin hb hw
    · rename_i hb
      cases href : table.reference? type.id with
      | none => rw [href] at h; cases h
      | some reference =>
        rw [href] at h
        cases hw : classWrapping position type with
        | error fault => rw [hw] at h; cases h
        | ok wrapped =>
          rw [hw] at h
          cases h
          exact .reference hb href hw
  · intro h
    cases h with
    | builtin hb hw => simp [hb, hw]
    | reference hb href hw => simp [hb, href, hw]

/-! The relations between members, classes and modules are over any relation `T` between types. -/

/-- An argument keeps its name. -/
def Argument.Lowers (T : TypePosition → TypeExpr → TypeRef → Prop) (param : ParameterDecl)
    (arg : Argument) : Prop :=
  arg.name = param.name ∧ T .argument param.type arg.type

/-- The parameters of a member in order, each with its name. -/
theorem Argument.classifyAll_eq_ok_iff {table : SymbolTable} {owner : String}
    {member : MemberDecl} {args : List Argument} :
    classifyAll table owner member = .ok args ↔
      List.Forall₂ (Lowers (TypeRef.Lowers table)) member.params args := by
  have hone (param : ParameterDecl) (arg : Argument) :
      (do return ⟨param.name, ← TypeRef.classify table owner member .argument param.type⟩ :
        Except Diagnostic Argument) = .ok arg ↔ Lowers (TypeRef.Lowers table) param arg := by
    simp only [Except.bind_eq_ok_iff, Except.pure_eq_ok_iff, TypeRef.classify_eq_ok_iff]
    constructor
    · rintro ⟨r, hr, rfl⟩
      exact ⟨rfl, hr⟩
    · rintro ⟨hname, hr⟩
      exact ⟨arg.type, hr, by rw [← hname]⟩
  rw [classifyAll, Except.mapM_eq_ok_iff]
  simp only [hone]

/-- A member keeps its kind and its names, and all types in it are related. -/
inductive Member.Lowers (T : TypePosition → TypeExpr → TypeRef → Prop) :
    MemberDecl → Member → Prop where
  | constructor {decl args} : List.Forall₂ (Argument.Lowers T) decl.params args →
      Lowers T (.constructor decl) (.constructor ⟨args⟩)
  | method {decl args returns} : decl.isStatic = false →
      List.Forall₂ (Argument.Lowers T) decl.params args → T .returned decl.returns returns →
      Lowers T (.method decl) (.method ⟨decl.name, args, returns, decl.isConst⟩)
  | staticMethod {decl args returns} : decl.isStatic = true →
      List.Forall₂ (Argument.Lowers T) decl.params args → T .returned decl.returns returns →
      Lowers T (.method decl) (.staticMethod ⟨decl.name, args, returns⟩)

theorem Member.lowers_constructor_iff {T : TypePosition → TypeExpr → TypeRef → Prop}
    {decl : ConstructorDecl} {m : Member} :
    Lowers T (.constructor decl) m ↔
      ∃ args, List.Forall₂ (Argument.Lowers T) decl.params args ∧ m = .constructor ⟨args⟩ := by
  constructor
  · intro h
    cases h with
    | constructor hargs => exact ⟨_, hargs, rfl⟩
  · rintro ⟨args, hargs, rfl⟩
    exact .constructor hargs

/-- Both sorts of methods at once. -/
theorem Member.lowers_method_iff {T : TypePosition → TypeExpr → TypeRef → Prop}
    {decl : MethodDecl} {m : Member} :
    Lowers T (.method decl) m ↔
      ∃ args, List.Forall₂ (Argument.Lowers T) decl.params args ∧
        ∃ returns, T .returned decl.returns returns ∧ m = .ofMethod decl args returns := by
  constructor
  · intro h
    cases h with
    | method hstatic hargs hreturns =>
      exact ⟨_, hargs, _, hreturns, by rw [ofMethod, hstatic]; rfl⟩
    | staticMethod hstatic hargs hreturns =>
      exact ⟨_, hargs, _, hreturns, by rw [ofMethod, hstatic]; rfl⟩
  · rintro ⟨args, hargs, returns, hreturns, rfl⟩
    unfold ofMethod
    cases hstatic : decl.isStatic with
    | true => exact .staticMethod hstatic hargs hreturns
    | false => exact .method hstatic hargs hreturns

theorem Member.constructor?_ofMethod (decl : MethodDecl) (args : List Argument)
    (returns : TypeRef) : (ofMethod decl args returns).constructor? = none := by
  unfold ofMethod
  split <;> rfl

/-- The types of a member are related one by one. -/
theorem Member.Lowers.types {T : TypePosition → TypeExpr → TypeRef → Prop} {d : MemberDecl}
    {m : Member} (h : Member.Lowers T d m) :
    List.Forall₂ (fun type r => ∃ position, T position type r) d.types m.types := by
  have args {params : List ParameterDecl} {args : List Argument}
      (hargs : List.Forall₂ (Argument.Lowers T) params args) :
      List.Forall₂ (fun type r => ∃ position, T position type r) (params.map (·.type))
        (args.map (·.type)) := by
    rw [List.forall₂_map_left_iff, List.forall₂_map_right_iff]
    exact hargs.imp fun _ _ h => ⟨_, h.2⟩
  cases h with
  | constructor hargs => exact args hargs
  | method _ hargs hreturns => exact .cons ⟨_, hreturns⟩ (args hargs)
  | staticMethod _ hargs hreturns => exact .cons ⟨_, hreturns⟩ (args hargs)

/-- To pass to another relation between types, look at the types that are there. -/
theorem Member.Lowers.imp {T T' : TypePosition → TypeExpr → TypeRef → Prop} {d : MemberDecl}
    {m : Member} (h : Member.Lowers T d m)
    (hT : ∀ position, ∀ type ∈ d.types, ∀ r ∈ m.types, T position type r → T' position type r) :
    Member.Lowers T' d m := by
  have args {params : List ParameterDecl} {args : List Argument}
      (hargs : List.Forall₂ (Argument.Lowers T) params args)
      (hparams : ∀ type ∈ params.map (·.type), type ∈ d.types)
      (htypes : ∀ r ∈ args.map (·.type), r ∈ m.types) :
      List.Forall₂ (Argument.Lowers T') params args :=
    forall₂_imp_of_mem hargs fun param hparam arg harg hlowers =>
      ⟨hlowers.1, hT _ _ (hparams _ (List.mem_map_of_mem hparam)) _
        (htypes _ (List.mem_map_of_mem harg)) hlowers.2⟩
  cases h with
  | constructor hargs => exact .constructor (args hargs (fun _ h => h) fun _ h => h)
  | method hstatic hargs hreturns =>
    exact .method hstatic
      (args hargs (fun _ h => List.mem_cons_of_mem _ h) fun _ h => List.mem_cons_of_mem _ h)
      (hT _ _ List.mem_cons_self _ List.mem_cons_self hreturns)
  | staticMethod hstatic hargs hreturns =>
    exact .staticMethod hstatic
      (args hargs (fun _ h => List.mem_cons_of_mem _ h) fun _ h => List.mem_cons_of_mem _ h)
      (hT _ _ List.mem_cons_self _ List.mem_cons_self hreturns)

/-- Two constructors may stand in one class. -/
def Constructor.Apart (settings : CheckSettings) (a b : Constructor) : Prop :=
  a.exactKey ≠ b.exactKey ∧ (settings.rejectAmbiguousConstructors = true → a.key ≠ b.key)

/-- No clash with earlier constructors means that each of them is apart from this one. -/
theorem PlacedConstructor.clash?_eq_none_iff {settings : CheckSettings} {owner : String}
    {earlier : List PlacedConstructor} {this : PlacedConstructor} :
    this.clash? settings owner earlier = none ↔
      ∀ e ∈ earlier, Constructor.Apart settings e.decl this.decl := by
  unfold clash?
  cases hsame : earlier.find? (·.decl.exactKey = this.decl.exactKey) with
  | some first =>
    simp only [reduceCtorEq, false_iff]
    intro h
    have hkey := List.find?_some hsame
    exact (h first (List.mem_of_find?_eq_some hsame)).1 (by simpa using hkey)
  | none =>
    have hexact : ∀ e ∈ earlier, e.decl.exactKey ≠ this.decl.exactKey := by
      simpa using hsame
    cases hreject : settings.rejectAmbiguousConstructors with
    | false =>
      simp only [Bool.false_eq_true, ↓reduceIte, true_iff]
      exact fun e he => ⟨hexact e he, fun h => by rw [hreject] at h; cases h⟩
    | true =>
      simp only [↓reduceIte, Option.map_eq_none_iff, List.find?_eq_none, decide_eq_true_eq]
      exact ⟨fun h e he => ⟨hexact e he, fun _ => h e he⟩, fun h e he => (h e he).2 hreject⟩

/-- Constructors behind earlier ones may stand there when the first of them may, and the others
behind it. -/
theorem Constructor.apart_cons_iff {settings : CheckSettings} {earlier : List PlacedConstructor}
    {c : Constructor} {cs : List Constructor} {span : Span} :
    (∀ e ∈ earlier, ∀ d ∈ c :: cs, Apart settings e.decl d) ∧ (c :: cs).Pairwise (Apart settings) ↔
      (∀ e ∈ earlier, Apart settings e.decl c) ∧
        (∀ e ∈ earlier ++ [⟨c, span⟩], ∀ d ∈ cs, Apart settings e.decl d) ∧
        cs.Pairwise (Apart settings) := by
  simp only [List.forall_mem_cons, List.forall_mem_append, List.pairwise_cons, forall_and]
  tauto

section

variable {table : SymbolTable} {settings : CheckSettings} {owner : String}
  {earlier : List PlacedConstructor} {rest : List MemberDecl} {members : List Member}

/-- A constructor is compared with those in front, and those behind are compared with it. -/
theorem Member.classifyAll_constructor_eq_ok_iff {decl : ConstructorDecl} :
    classifyAll table settings owner earlier (.constructor decl :: rest) = .ok members ↔
      ∃ args, List.Forall₂ (Argument.Lowers (TypeRef.Lowers table)) decl.params args ∧
        (∀ e ∈ earlier, Constructor.Apart settings e.decl ⟨args⟩) ∧
        ∃ others, classifyAll table settings owner (earlier ++ [⟨⟨args⟩, decl.span⟩]) rest =
          .ok others ∧ members = .constructor ⟨args⟩ :: others := by
  rw [classifyAll, Except.bind_eq_ok_iff]
  simp only [Argument.classifyAll_eq_ok_iff]
  refine exists_congr fun args => and_congr_right fun _ => ?_
  have hapart : (⟨⟨args⟩, decl.span⟩ : PlacedConstructor).clash? settings owner earlier = none ↔
      ∀ e ∈ earlier, Constructor.Apart settings e.decl ⟨args⟩ :=
    PlacedConstructor.clash?_eq_none_iff
  rw [← hapart]
  split
  · rename_i hclash
    simp [hclash]
  · rename_i hclash
    simp only [hclash, true_and, Except.bind_eq_ok_iff, Except.pure_eq_ok_iff]

/-- Methods are compared by name before, so here only their types count. -/
theorem Member.classifyAll_method_eq_ok_iff {decl : MethodDecl} :
    classifyAll table settings owner earlier (.method decl :: rest) = .ok members ↔
      ∃ args, List.Forall₂ (Argument.Lowers (TypeRef.Lowers table)) decl.params args ∧
        ∃ returns, TypeRef.Lowers table .returned decl.returns returns ∧
        ∃ others, classifyAll table settings owner earlier rest = .ok others ∧
          members = .ofMethod decl args returns :: others := by
  rw [classifyAll]
  simp only [Except.bind_eq_ok_iff, Argument.classifyAll_eq_ok_iff, TypeRef.classify_eq_ok_iff,
    Except.pure_eq_ok_iff]
  rfl

/-- The members are lowered one by one, and no constructor collides with another one. -/
theorem Member.classifyAll_eq_ok_iff {decls : List MemberDecl} :
    classifyAll table settings owner earlier decls = .ok members ↔
      List.Forall₂ (Lowers (TypeRef.Lowers table)) decls members ∧
      (∀ e ∈ earlier, ∀ c ∈ members.filterMap constructor?,
        Constructor.Apart settings e.decl c) ∧
      (members.filterMap constructor?).Pairwise (Constructor.Apart settings) := by
  induction decls generalizing earlier members with
  | nil =>
    rw [classifyAll, List.forall₂_nil_left_iff]
    constructor
    · intro h
      cases h
      simp
    · rintro ⟨rfl, -⟩
      rfl
  | cons decl decls ih =>
    cases decl with
    | constructor decl =>
      -- a constructor joins those that the later ones are compared with
      simp only [classifyAll_constructor_eq_ok_iff, List.forall₂_cons_left_iff,
        lowers_constructor_iff, ih]
      constructor
      · rintro ⟨args, hargs, hfirst, others, ⟨hothers, hapart⟩, rfl⟩
        exact ⟨⟨_, others, ⟨args, hargs, rfl⟩, hothers, rfl⟩,
          Constructor.apart_cons_iff.mpr ⟨hfirst, hapart⟩⟩
      · rintro ⟨⟨_, others, ⟨args, hargs, rfl⟩, hothers, rfl⟩, hapart⟩
        obtain ⟨hfirst, hapart⟩ := Constructor.apart_cons_iff.mp hapart
        exact ⟨args, hargs, hfirst, others, ⟨hothers, hapart⟩, rfl⟩
    | method decl =>
      simp only [classifyAll_method_eq_ok_iff, List.forall₂_cons_left_iff, lowers_method_iff, ih]
      constructor
      · rintro ⟨args, hargs, returns, hreturns, others, ⟨hothers, hapart⟩, rfl⟩
        rw [List.filterMap_cons_none (constructor?_ofMethod decl args returns)]
        exact ⟨⟨_, others, ⟨args, hargs, returns, hreturns, rfl⟩, hothers, rfl⟩, hapart⟩
      · rintro ⟨⟨_, others, ⟨args, hargs, returns, hreturns, rfl⟩, hothers, rfl⟩, hapart⟩
        rw [List.filterMap_cons_none (constructor?_ofMethod decl args returns)] at hapart
        exact ⟨args, hargs, returns, hreturns, others, ⟨hothers, hapart⟩, rfl⟩

end

/-! ## Classes -/

/-- What methods are told apart by. -/
def MethodDecl.key (m : MethodDecl) : Bool × String := (m.isStatic, m.name)

/-- Nothing repeats what was seen, and nothing repeats what comes with it. -/
theorem firstRepeat?_eq_none_iff {α κ : Type} [DecidableEq κ] {key : α → κ} {seen as : List α} :
    firstRepeat? key seen as = none ↔
      (∀ s ∈ seen, ∀ a ∈ as, key s ≠ key a) ∧ as.Pairwise fun a b => key a ≠ key b := by
  induction as generalizing seen with
  | nil => simp [firstRepeat?]
  | cons a as ih =>
    rw [firstRepeat?]
    cases hfound : seen.find? (key · = key a) with
    | some first =>
      simp only [reduceCtorEq, false_iff]
      rintro ⟨hseen, -⟩
      have hkey := List.find?_some hfound
      exact hseen first (List.mem_of_find?_eq_some hfound) a List.mem_cons_self
        (by simpa using hkey)
    | none =>
      have hfresh : ∀ s ∈ seen, key s ≠ key a := by simpa using hfound
      simp only [ih, List.mem_cons, forall_eq_or_imp, List.pairwise_cons]
      constructor
      · rintro ⟨⟨hthis, hseen⟩, hpairwise⟩
        exact ⟨fun s hs => ⟨hfresh s hs, hseen s hs⟩, hthis, hpairwise⟩
      · rintro ⟨hseen, hthis, hpairwise⟩
        exact ⟨⟨hthis, fun s hs => (hseen s hs).2⟩, hpairwise⟩

/-- The check for repeated methods finds nothing if their keys are distinct. -/
theorem ClassDecl.repeatedMethod?_eq_none_iff {decl : ClassDecl} :
    decl.repeatedMethod? = none ↔
      (decl.members.filterMap fun m => m.method?.map MethodDecl.key).Nodup := by
  rw [repeatedMethod?, Option.map_eq_none_iff, firstRepeat?_eq_none_iff, List.Nodup,
    ← List.map_filterMap, List.pairwise_map]
  simp [MethodDecl.key]

/-- A class with a body keeps its name and its header, and nothing in it is there twice. -/
structure Class.Lowers (T : TypePosition → TypeExpr → TypeRef → Prop) (settings : CheckSettings)
    (scope : List String) (inherited : Option String) (decl : ClassDecl) (c : Class) : Prop where
  name : c.name = decl.name
  namespaces : c.namespaces = scope
  override : c.override = decl.override.map (·.path)
  header : c.header =
    ((decl.override.map (·.path)) <|> inherited).getD (conventionalHeader decl.name)
  forwardOnly : c.forwardOnly = false
  members : List.Forall₂ (Member.Lowers T) decl.members c.members
  methods : (decl.members.filterMap fun m => m.method?.map MethodDecl.key).Nodup
  constructors : c.constructors.Pairwise (Constructor.Apart settings)

/-- The types of a class are related one by one. -/
theorem Class.Lowers.types {T : TypePosition → TypeExpr → TypeRef → Prop}
    {settings : CheckSettings} {scope : List String} {inherited : Option String} {decl : ClassDecl}
    {c : Class} (h : Lowers T settings scope inherited decl c) :
    List.Forall₂ (fun type r => ∃ position, T position type r) decl.types c.types :=
  List.rel_flatMap h.members fun _ _ hm => hm.types

theorem Class.Lowers.imp {T T' : TypePosition → TypeExpr → TypeRef → Prop}
    {settings : CheckSettings} {scope : List String} {inherited : Option String} {decl : ClassDecl}
    {c : Class} (h : Lowers T settings scope inherited decl c)
    (hT : ∀ position, ∀ type ∈ decl.types, ∀ r ∈ c.types,
      T position type r → T' position type r) :
    Lowers T' settings scope inherited decl c := by
  refine { h with members := forall₂_imp_of_mem h.members fun d hd m hm hlowers => ?_ }
  exact hlowers.imp fun position type htype r hr => hT position type
    (List.mem_flatMap.mpr ⟨d, hd, htype⟩) r (List.mem_flatMap.mpr ⟨m, hm, hr⟩)

/-- A class with all its checks is what `Class.Lowers` says. -/
theorem Class.ofDecl_eq_ok_iff {table : SymbolTable} {settings : CheckSettings}
    {scope : List String} {inherited : Option String} {decl : ClassDecl} {c : Class} :
    ofDecl table settings scope inherited decl = .ok c ↔
      Lowers (TypeRef.Lowers table) settings scope inherited decl c := by
  unfold ofDecl
  cases hrepeated : decl.repeatedMethod? with
  | some clash =>
    simp only [reduceCtorEq, false_iff]
    intro h
    rw [ClassDecl.repeatedMethod?_eq_none_iff.mpr h.methods] at hrepeated
    cases hrepeated
  | none =>
    have hmethods := ClassDecl.repeatedMethod?_eq_none_iff.mp hrepeated
    simp only [Except.bind_eq_ok_iff, Except.pure_eq_ok_iff, Member.classifyAll_eq_ok_iff]
    constructor
    · rintro ⟨members, ⟨hmembers, -, hpairwise⟩, rfl⟩
      exact ⟨rfl, rfl, rfl, rfl, rfl, hmembers, hmethods, hpairwise⟩
    · intro h
      refine ⟨c.members, ⟨h.members, fun e he => absurd he List.not_mem_nil, h.constructors⟩, ?_⟩
      obtain ⟨hname, hnamespaces, hoverride, hheader, hforward, -⟩ := h
      obtain ⟨name, namespaces, override, header, forwardOnly, members⟩ := c
      subst hname hnamespaces hoverride hheader hforward
      rfl

/-! ## Items -/

/-- What the items of a scope add to the tree, where `C` relates classes with a body. -/
inductive Module.Lowers (C : List String → Option String → ClassDecl → Class → Prop) :
    List String → Option String → List Item → Module → Prop where
  | nil {scope inherited} : Lowers C scope inherited [] ⟨[], []⟩
  | space {scope inherited head items rest inside m} :
      Lowers C (scope ++ head.name.toList) ((head.override.map (·.path)) <|> inherited) items
        inside →
      Lowers C scope inherited rest m →
      Lowers C scope inherited (.space head items :: rest)
        ⟨⟨head.name, scope ++ head.name.toList, head.override.map (·.path), inside.namespaces,
          inside.classes⟩ :: m.namespaces, m.classes⟩
  | definition {scope inherited decl rest c m} : C scope inherited decl c →
      Lowers C scope inherited rest m →
      Lowers C scope inherited (.definition decl :: rest) ⟨m.namespaces, c :: m.classes⟩
  | forward {scope inherited decl rest m} : Lowers C scope inherited rest m →
      Lowers C scope inherited (.forward decl :: rest)
        ⟨m.namespaces, .ofForward scope decl :: m.classes⟩

/-- A list of items with its scope and header, by induction on the items. -/
theorem Item.classifyAll_eq_ok_iff {table : SymbolTable} {settings : CheckSettings}
    {scope : List String} {inherited : Option String} {items : List Item} {m : Module} :
    classifyAll table settings scope inherited items = .ok m ↔
      Module.Lowers (Class.Lowers (TypeRef.Lowers table) settings) scope inherited items m := by
  induction items using Item.induction generalizing scope inherited m with
  | nil =>
    rw [classifyAll]
    constructor
    · intro h
      cases h
      exact .nil
    · intro h
      cases h
      rfl
  | space head items rest ih ihrest =>
    rw [classifyAll, classify]
    simp only [Except.bind_eq_ok_iff, Except.pure_eq_ok_iff, ih, ihrest]
    constructor
    · rintro ⟨_, ⟨inside, hinside, rfl⟩, m, hm, rfl⟩
      exact .space hinside hm
    · intro h
      cases h with
      | space hinside hm => exact ⟨_, ⟨_, hinside, rfl⟩, _, hm, rfl⟩
  | definition decl rest ih =>
    rw [classifyAll, classify]
    simp only [Except.bind_eq_ok_iff, Except.pure_eq_ok_iff, Class.ofDecl_eq_ok_iff, ih]
    constructor
    · rintro ⟨_, ⟨c, hc, rfl⟩, m, hm, rfl⟩
      exact .definition hc hm
    · intro h
      cases h with
      | definition hc hm => exact ⟨_, ⟨_, hc, rfl⟩, _, hm, rfl⟩
  | forward decl rest ih =>
    rw [classifyAll, classify]
    simp only [Except.bind_eq_ok_iff, Except.pure_eq_ok_iff, ih]
    constructor
    · rintro ⟨_, h, m, hm, rfl⟩
      cases h
      exact .forward hm
    · intro h
      cases h with
      | forward hm => exact ⟨_, rfl, _, hm, rfl⟩

theorem Module.Lowers.append {C : List String → Option String → ClassDecl → Class → Prop}
    {scope : List String} {inherited : Option String} {items more : List Item} {m m' : Module}
    (h : Lowers C scope inherited items m) (h' : Lowers C scope inherited more m') :
    Lowers C scope inherited (items ++ more) (m.beside m') := by
  induction h with
  | nil => exact h'
  | space hinside _ _ ih => exact .space hinside (ih h')
  | definition hc _ ih => exact .definition hc (ih h')
  | forward _ ih => exact .forward (ih h')

/-- The classes of a tree are those inside its first namespace and those beside it. -/
theorem Module.mem_allClasses_space {name : Option String} {path : List String}
    {override : Option String} {inside m : Module} {c : Class} :
    c ∈ allClasses ⟨⟨name, path, override, inside.namespaces, inside.classes⟩ :: m.namespaces,
      m.classes⟩ ↔ c ∈ inside.allClasses ∨ c ∈ m.allClasses := by
  simp only [allClasses, Namespace.classesOfAll, Namespace.allClasses, List.mem_append]
  exact or_left_comm

/-- To pass to another relation between classes, look at the classes that are there. -/
theorem Module.Lowers.imp {C C' : List String → Option String → ClassDecl → Class → Prop}
    {scope : List String} {inherited : Option String} {items : List Item} {m : Module}
    (h : Lowers C scope inherited items m)
    (hC : ∀ scope' inherited' decl, ⟨scope', .definition decl⟩ ∈ Item.allDeclarations scope items →
      ∀ c ∈ m.allClasses, C scope' inherited' decl c → C' scope' inherited' decl c) :
    Lowers C' scope inherited items m := by
  induction h with
  | nil => exact .nil
  | space _ _ ih ihrest =>
    refine .space (ih fun scope' inherited' decl hd c hc => ?_)
      (ihrest fun scope' inherited' decl hd c hc => ?_)
    · exact hC _ _ _ (List.mem_append_left _ hd) c (mem_allClasses_space.mpr (.inl hc))
    · exact hC _ _ _ (List.mem_append_right _ hd) c (mem_allClasses_space.mpr (.inr hc))
  | definition hc _ ih =>
    refine .definition (hC _ _ _ List.mem_cons_self _ List.mem_cons_self hc)
      (ih fun scope' inherited' decl hd c hc => ?_)
    exact hC _ _ _ (List.mem_cons_of_mem _ hd) c (List.mem_cons_of_mem _ hc)
  | forward _ ih =>
    refine .forward (ih fun scope' inherited' decl hd c hc => ?_)
    exact hC _ _ _ (List.mem_cons_of_mem _ hd) c (List.mem_cons_of_mem _ hc)

/-! ## The classes of a tree -/

/-- The class that a declaration has in the tree. -/
inductive Class.Of (C : List String → Option String → ClassDecl → Class → Prop) :
    Scoped Declaration → Class → Prop where
  | definition {scope inherited decl c} : C scope inherited decl c →
      Of C ⟨scope, .definition decl⟩ c
  | forward {scope decl} : Of C ⟨scope, .forward decl⟩ (.ofForward scope decl)

/-- The tree holds one class for each declaration. -/
theorem Module.Lowers.allClasses {C : List String → Option String → ClassDecl → Class → Prop}
    {scope : List String} {inherited : Option String} {items : List Item} {m : Module}
    (h : Lowers C scope inherited items m) :
    ∃ cs, List.Forall₂ (Class.Of C) (Item.allDeclarations scope items) cs ∧
      cs.Perm m.allClasses := by
  induction h with
  | nil => exact ⟨[], .nil, .nil⟩
  | @space scope inherited head items rest inside m _ _ ih ihrest =>
    obtain ⟨cs, hcs, hperm⟩ := ih
    obtain ⟨ds, hds, hperm'⟩ := ihrest
    refine ⟨cs ++ ds, List.rel_append hcs hds, (hperm.append hperm').trans ?_⟩
    exact List.perm_append_comm_assoc inside.allClasses m.classes
      (Namespace.classesOfAll m.namespaces)
  | definition hc _ ih =>
    obtain ⟨cs, hcs, hperm⟩ := ih
    exact ⟨_ :: cs, .cons (.definition hc) hcs, hperm.cons _⟩
  | forward _ ih =>
    obtain ⟨cs, hcs, hperm⟩ := ih
    exact ⟨_ :: cs, .cons .forward hcs, hperm.cons _⟩

/-- Each declaration has its class in the tree. -/
theorem Module.Lowers.exists_class {C : List String → Option String → ClassDecl → Class → Prop}
    {scope : List String} {inherited : Option String} {items : List Item} {m : Module}
    (h : Lowers C scope inherited items m) {d : Scoped Declaration}
    (hd : d ∈ Item.allDeclarations scope items) : ∃ c ∈ m.allClasses, Class.Of C d c := by
  obtain ⟨cs, hcs, hperm⟩ := h.allClasses
  obtain ⟨c, hc, hof⟩ := exists_of_forall₂ hcs.flip hd
  exact ⟨c, hperm.mem_iff.mp hc, hof⟩

/-- Each class of the tree is declared. -/
theorem Module.Lowers.exists_declaration
    {C : List String → Option String → ClassDecl → Class → Prop} {scope : List String}
    {inherited : Option String} {items : List Item} {m : Module}
    (h : Lowers C scope inherited items m) {c : Class} (hc : c ∈ m.allClasses) :
    ∃ d ∈ Item.allDeclarations scope items, Class.Of C d c := by
  obtain ⟨cs, hcs, hperm⟩ := h.allClasses
  exact exists_of_forall₂ hcs (hperm.mem_iff.mpr hc)

/-- A class is found where it is declared, under its name. -/
theorem Class.Of.place {T : TypePosition → TypeExpr → TypeRef → Prop} {settings : CheckSettings}
    {d : Scoped Declaration} {c : Class} (h : Class.Of (Class.Lowers T settings) d c) :
    c.namespaces = d.scope ∧ c.name = d.decl.name ∧ c.forwardOnly = !d.decl.isDefinition := by
  cases h with
  | definition hc => exact ⟨hc.namespaces, hc.name, hc.forwardOnly⟩
  | forward => exact ⟨rfl, rfl, rfl⟩

theorem Class.Of.qualifiedName {T : TypePosition → TypeExpr → TypeRef → Prop}
    {settings : CheckSettings} {d : Scoped Declaration} {c : Class}
    (h : Class.Of (Class.Lowers T settings) d c) : c.qualifiedName = d.path.text := by
  obtain ⟨hnamespaces, hname, -⟩ := h.place
  rw [Class.qualifiedName, hnamespaces, hname, Scoped.path]

end BindingIdl
