import BindingIdl.Proofs.Module.References

/-!
# Canonical modules

What every accepted module satisfies, said of the tree alone: its names are spelled as the rules
ask, paths and headers agree with the places in the tree, types are ones that a signature can have,
no path is there twice, and the path of every class that is mentioned denotes that class where it
is mentioned.

`Module.canonical_of_ofText` collects this from the file, its table and its classification. It is
all that is needed to read a printed module back.
-/

namespace BindingIdl

open Declaration

/-! ## The conditions -/

/-- The full path of a class, or the spelling of any other type. -/
def TypeRef.path (r : TypeRef) : QualifiedName := ⟨r.namespaces, r.name⟩

/-- What a type in a signature can be classified as. -/
inductive TypeRef.Canonical (position : TypePosition) : TypeRef → Prop where
  | builtin {b name} : Builtin.ofName? name = some b → (b = .void → position = .returned) →
      Canonical position (.ofBuiltin b.kind name)
  | reference {type wrapped reference} : classWrapping position type = .ok wrapped →
      reference.path.Wellformed →
      (reference.path.isQualified = false → Builtin.ofName? reference.path.name = none) →
      Canonical position (.ofReference wrapped position reference)

/-- An argument has a name that can be written, and a type that can be passed. -/
structure Argument.Canonical (a : Argument) : Prop where
  name : isIdentifier a.name = true
  type : a.type.Canonical .argument

/-- A member as the naming rules allow it. Only a method may be constant, and only a result may be
nothing. -/
inductive Member.Canonical : Member → Prop where
  | constructor {args} : (∀ a ∈ args, a.Canonical) → Canonical (.constructor ⟨args⟩)
  | method {name args returns isConst} : isIdentifier name = true → startsLower name = true →
      (∀ a ∈ args, a.Canonical) → returns.Canonical .returned →
      Canonical (.method ⟨name, args, returns, isConst⟩)
  | staticMethod {name args returns} : isIdentifier name = true → startsWithLetter name = true →
      (∀ a ∈ args, a.Canonical) → returns.Canonical .returned →
      Canonical (.staticMethod ⟨name, args, returns⟩)

/-- What methods are told apart by. -/
def Member.methodKey? : Member → Option (Bool × String)
  | constructor _ => none
  | method m => some (false, m.name)
  | staticMethod m => some (true, m.name)

/-- A class in a scope where `inherited` is the header named for the namespaces around it. -/
inductive Class.Canonical (scope : List String) (inherited : Option String) : Class → Prop where
  | forward {decl} : decl.Spelled → Canonical scope inherited (.ofForward scope decl)
  | definition {name override members} : isIdentifier name = true → startsUpper name = true →
      (∀ path ∈ override, IsHeaderPath path) → (∀ m ∈ members, m.Canonical) →
      (members.filterMap Member.methodKey?).Nodup →
      (members.filterMap Member.constructor?).Pairwise (Constructor.Apart default) →
      Canonical scope inherited ⟨name, scope, override,
        (override <|> inherited).getD (conventionalHeader name), false, members⟩

/-- The namespaces of one level of the tree. -/
inductive Namespace.AllCanonical : List String → Option String → List Namespace → Prop where
  | nil {scope inherited} : AllCanonical scope inherited []
  | cons {scope inherited name override namespaces classes rest} :
      (∀ n ∈ name, isIdentifier n = true ∧ startsLower n = true) →
      (∀ path ∈ override, IsHeaderPath path) →
      AllCanonical (scope ++ name.toList) (override <|> inherited) namespaces →
      (∀ c ∈ classes, c.Canonical (scope ++ name.toList) (override <|> inherited)) →
      AllCanonical scope inherited rest →
      AllCanonical scope inherited
        (⟨name, scope ++ name.toList, override, namespaces, classes⟩ :: rest)

/-- The path that a class is looked up by. -/
def Class.path (c : Class) : QualifiedName := ⟨c.namespaces, c.name⟩

namespace Module

/-- The paths of classes with a definition. -/
def definedPaths (m : Module) : List QualifiedName := m.definedClasses.map Class.path

/-- The paths of classes that are stubs in the tree. -/
def forwardPaths (m : Module) : List QualifiedName := m.forwardDeclarations.map Class.path

/-- A module that can be printed and read back. -/
structure Canonical (m : Module) : Prop where
  classes : ∀ c ∈ m.classes, c.Canonical [] none
  namespaces : Namespace.AllCanonical [] none m.namespaces
  distinct : (m.allClasses.map Class.path).Nodup
  /-- The path of a class denotes itself, and it is external where it is not defined. -/
  references : ∀ c ∈ m.allClasses, ∀ r ∈ c.types, r.kind.isClass = true →
    Denotes m.definedPaths m.forwardPaths c.namespaces r.path r.path ∧
      (r.origin = some .external ↔ r.path ∉ m.definedPaths)

end Module

/-! ## Names and types -/

/-- Settling drops items and renames none. -/
theorem Item.AllSpelled.settleAll {items : List Item} (h : Item.AllSpelled items)
    (table : SymbolTable) (scope placed : List String) :
    Item.AllSpelled (Item.settleAll table scope placed items).1 := by
  induction items using Item.induction generalizing scope placed with
  | nil => trivial
  | space head items rest ih ihrest =>
    rw [Item.settleAll, Item.settle]
    exact ⟨⟨h.1.1, ih h.1.2 _ _⟩, ihrest h.2 _ _⟩
  | definition decl rest ih =>
    rw [Item.settleAll, Item.settle]
    exact ⟨h.1, ih h.2 _ _⟩
  | forward decl rest ih =>
    rw [Item.settleAll, Item.settle]
    dsimp only
    split
    · exact ⟨h.1, ih h.2 _ _⟩
    · exact ih h.2 _ _

/-- A bare class name never has the spelling of a builtin. -/
theorem TypeExpr.ofName?_of_denotes {type : TypeExpr} {defined forward : List QualifiedName}
    {scope : List String} {p : QualifiedName} (hbuiltin : type.builtin? = none)
    (h : Denotes defined forward scope type.name p) (hp : p.isQualified = false) :
    Builtin.ofName? p.name = none := by
  have hname : p.name = type.name.name := by
    generalize type.name = name at h
    cases h <;> rfl
  -- a qualified name denotes itself, which is not bare
  have hbare : type.name.isQualified = false := by
    cases hq : type.name.isQualified with
    | false => rfl
    | true =>
      rw [((Denotes.qualified_iff hq).mp h).1, hq] at hp
      cases hp
  rw [builtin?, hbare] at hbuiltin
  rw [hname]
  exact hbuiltin

/-- A type that is classified is a builtin, a class of the module or one of somebody else's. -/
theorem Compiled.canonical_type {settings : CheckSettings} {file : InterfaceFile}
    {table : SymbolTable} {m : Module} (h : Compiled settings file table m) {d : Scoped ClassDecl}
    (hd : d ∈ file.definitions) {position : TypePosition} {type : TypeExpr}
    (htype : type ∈ d.decl.types) {r : TypeRef} (hr : TypeRef.Lowers table position type r) :
    r.Canonical position := by
  cases hr with
  | @builtin b wrapped hbuiltin hw =>
    obtain ⟨rfl, hvoid⟩ := Builtin.wrapping_eq_ok hw
    refine .builtin ?_ hvoid
    rw [TypeExpr.builtin?] at hbuiltin
    split at hbuiltin
    · cases hbuiltin
    · exact hbuiltin
  | reference hbuiltin href hw =>
    obtain ⟨hwell, -, hdenotes⟩ := h.reference hd htype hbuiltin href
    exact .reference hw hwell (TypeExpr.ofName?_of_denotes hbuiltin hdenotes)

/-! ## Members and classes -/

section

variable {T : TypePosition → TypeExpr → TypeRef → Prop}

/-- Arguments keep the names of their parameters. -/
theorem Argument.Lowers.canonical {params : List ParameterDecl} {args : List Argument}
    (h : List.Forall₂ (Argument.Lowers T) params args) (hspelled : ∀ p ∈ params, p.Spelled)
    (hT : ∀ p ∈ params, ∀ r, T .argument p.type r → r.Canonical .argument) :
    ∀ a ∈ args, a.Canonical := by
  intro a ha
  obtain ⟨p, hp, hname, htype⟩ := exists_of_forall₂ h ha
  exact ⟨hname ▸ (hspelled p hp).1, hT p hp _ htype⟩

/-- A lowered member follows the naming rules of the one it comes from. -/
theorem Member.Lowers.canonical {d : MemberDecl} {m : Member} (h : Member.Lowers T d m)
    (hspelled : d.Spelled)
    (hT : ∀ position, ∀ type ∈ d.types, ∀ r, T position type r → r.Canonical position) :
    m.Canonical := by
  cases h with
  | constructor hargs =>
    exact .constructor (Argument.Lowers.canonical hargs hspelled.params fun p hp =>
      hT _ _ (List.mem_map_of_mem hp))
  | method hstatic hargs hreturns =>
    obtain ⟨hname, hinitial, -⟩ := hspelled.method _ rfl
    rw [hstatic] at hinitial
    refine .method hname hinitial (Argument.Lowers.canonical hargs hspelled.params fun p hp =>
      hT _ _ (List.mem_cons_of_mem _ (List.mem_map_of_mem hp))) ?_
    exact hT _ _ List.mem_cons_self _ hreturns
  | staticMethod hstatic hargs hreturns =>
    obtain ⟨hname, hinitial, -⟩ := hspelled.method _ rfl
    rw [hstatic] at hinitial
    refine .staticMethod hname hinitial (Argument.Lowers.canonical hargs hspelled.params fun p hp =>
      hT _ _ (List.mem_cons_of_mem _ (List.mem_map_of_mem hp))) ?_
    exact hT _ _ List.mem_cons_self _ hreturns

theorem Member.Lowers.methodKey? {d : MemberDecl} {m : Member} (h : Member.Lowers T d m) :
    m.methodKey? = d.method?.map MethodDecl.key := by
  cases h with
  | constructor => rfl
  | method hstatic => simp [Member.methodKey?, MemberDecl.method?, MethodDecl.key, hstatic]
  | staticMethod hstatic => simp [Member.methodKey?, MemberDecl.method?, MethodDecl.key, hstatic]

theorem Member.Lowers.filterMap_methodKey? {ds : List MemberDecl} {ms : List Member}
    (h : List.Forall₂ (Member.Lowers T) ds ms) :
    ms.filterMap Member.methodKey? = ds.filterMap fun d => d.method?.map MethodDecl.key := by
  induction h with
  | nil => rfl
  | cons hm _ ih => rw [List.filterMap_cons, List.filterMap_cons, hm.methodKey?, ih]

/-- A class is lowered under a header, that of its own, of a namespace around it or the conventional
one. -/
theorem Class.Lowers.canonical {settings : CheckSettings} {scope : List String}
    {inherited : Option String} {decl : ClassDecl} {c : Class}
    (h : Class.Lowers T settings scope inherited decl c) (hspelled : decl.Spelled)
    (hT : ∀ position, ∀ type ∈ decl.types, ∀ r, T position type r → r.Canonical position) :
    c.Canonical scope inherited := by
  obtain ⟨name, namespaces, override, header, forwardOnly, members⟩ := c
  obtain ⟨rfl, rfl, rfl, rfl, rfl, hmembers, hmethods, hconstructors⟩ := h
  refine .definition hspelled.name hspelled.initial ?_ ?_ ?_ ?_
  · intro path hpath
    obtain ⟨o, ho, rfl⟩ := Option.map_eq_some_iff.mp hpath
    exact hspelled.override o ho
  · intro m hm
    obtain ⟨d, hd, hlowers⟩ := exists_of_forall₂ hmembers hm
    exact hlowers.canonical (hspelled.members d hd) fun position type htype =>
      hT position type (List.mem_flatMap.mpr ⟨d, hd, htype⟩)
  · rw [Member.Lowers.filterMap_methodKey? hmembers]
    exact hmethods
  · exact hconstructors.imp fun hapart => ⟨hapart.1, fun h => by cases h⟩

end

/-! ## The tree -/

/-- A level of the tree is canonical when its classes are. -/
theorem Module.Lowers.canonical {C : List String → Option String → ClassDecl → Class → Prop}
    {scope : List String} {inherited : Option String} {items : List Item} {m : Module}
    (h : Lowers C scope inherited items m) (hspelled : Item.AllSpelled items)
    (hC : ∀ scope' inherited' decl c,
      ⟨scope', .definition decl⟩ ∈ Item.allDeclarations scope items →
      C scope' inherited' decl c → c.Canonical scope' inherited') :
    (∀ c ∈ m.classes, c.Canonical scope inherited) ∧
      Namespace.AllCanonical scope inherited m.namespaces := by
  induction h with
  | nil => exact ⟨fun c hc => absurd hc List.not_mem_nil, .nil⟩
  | space _ _ ih ihrest =>
    obtain ⟨⟨hhead, hitems⟩, hrest⟩ := hspelled
    obtain ⟨hclasses, hnamespaces⟩ := ih hitems fun scope' inherited' decl c hmem =>
      hC scope' inherited' decl c (List.mem_append_left _ hmem)
    obtain ⟨hothers, hspaces⟩ := ihrest hrest fun scope' inherited' decl c hmem =>
      hC scope' inherited' decl c (List.mem_append_right _ hmem)
    -- an include line in front of a namespace is inherited by what is inside
    refine ⟨hothers, .cons hhead.name (fun path hpath => ?_) hnamespaces hclasses hspaces⟩
    obtain ⟨o, ho, rfl⟩ := Option.map_eq_some_iff.mp hpath
    exact hhead.override o ho
  | definition hc _ ih =>
    obtain ⟨hclasses, hspaces⟩ := ih hspelled.2 fun scope' inherited' decl c hmem =>
      hC scope' inherited' decl c (List.mem_cons_of_mem _ hmem)
    refine ⟨fun c' hc' => ?_, hspaces⟩
    obtain rfl | hc' := List.mem_cons.mp hc'
    · exact hC _ _ _ _ List.mem_cons_self hc
    · exact hclasses c' hc'
  | forward _ ih =>
    obtain ⟨hclasses, hspaces⟩ := ih hspelled.2 fun scope' inherited' decl c hmem =>
      hC scope' inherited' decl c (List.mem_cons_of_mem _ hmem)
    refine ⟨fun c' hc' => ?_, hspaces⟩
    obtain rfl | hc' := List.mem_cons.mp hc'
    · exact .forward hspelled.1
    · exact hclasses c' hc'

/-! ## What the tree declares -/

/-- A path, and whether it is declared with a body. -/
def Scoped.entry (d : Scoped Declaration) : QualifiedName × Bool := (d.path, d.decl.isDefinition)

/-- The path of a class, and whether it is in the tree with a body. -/
def Class.entry (c : Class) : QualifiedName × Bool := (c.path, !c.forwardOnly)

theorem mem_definedPaths_iff_entry {ds : List (Scoped Declaration)} {q : QualifiedName} :
    q ∈ definedPaths ds ↔ (q, true) ∈ ds.map Scoped.entry := by
  simp [mem_definedPaths, Scoped.entry, and_comm]

theorem mem_forwardPaths_iff_entry {ds : List (Scoped Declaration)} {q : QualifiedName} :
    q ∈ forwardPaths ds ↔ (q, false) ∈ ds.map Scoped.entry := by
  simp [mem_forwardPaths, Scoped.entry, and_comm]

namespace Module

theorem mem_definedPaths_iff_entry {m : Module} {q : QualifiedName} :
    q ∈ m.definedPaths ↔ (q, true) ∈ m.allClasses.map Class.entry := by
  simp [definedPaths, definedClasses, Class.entry, and_comm, and_left_comm, and_assoc]

theorem mem_forwardPaths_iff_entry {m : Module} {q : QualifiedName} :
    q ∈ m.forwardPaths ↔ (q, false) ∈ m.allClasses.map Class.entry := by
  simp [forwardPaths, forwardDeclarations, Class.entry, and_comm, and_left_comm, and_assoc]

variable {T : TypePosition → TypeExpr → TypeRef → Prop} {settings : CheckSettings}
  {scope : List String} {inherited : Option String} {items : List Item} {m : Module}

/-- The tree declares what its items declare, in another order. -/
theorem Lowers.entries (h : Lowers (Class.Lowers T settings) scope inherited items m) :
    ((Item.allDeclarations scope items).map Scoped.entry).Perm (m.allClasses.map Class.entry) := by
  obtain ⟨cs, hcs, hperm⟩ := h.allClasses
  have hsame : (Item.allDeclarations scope items).map Scoped.entry = cs.map Class.entry := by
    clear hperm
    generalize Item.allDeclarations scope items = ds at hcs
    induction hcs with
    | nil => rfl
    | cons hof _ ih =>
      obtain ⟨hnamespaces, hname, hforward⟩ := hof.place
      rw [List.map_cons, List.map_cons, ih, Class.entry, Class.path, hnamespaces, hname, hforward,
        Bool.not_not]
      rfl
  rw [hsame]
  exact hperm.map _

/-- The definitions of a tree are those of its items. -/
theorem Lowers.definedPaths (h : Lowers (Class.Lowers T settings) scope inherited items m)
    (q : QualifiedName) :
    q ∈ m.definedPaths ↔ q ∈ Declaration.definedPaths (Item.allDeclarations scope items) := by
  rw [mem_definedPaths_iff_entry, BindingIdl.mem_definedPaths_iff_entry, h.entries.mem_iff]

theorem Lowers.forwardPaths (h : Lowers (Class.Lowers T settings) scope inherited items m)
    (q : QualifiedName) :
    q ∈ m.forwardPaths ↔ q ∈ Declaration.forwardPaths (Item.allDeclarations scope items) := by
  rw [mem_forwardPaths_iff_entry, BindingIdl.mem_forwardPaths_iff_entry, h.entries.mem_iff]

theorem Lowers.paths (h : Lowers (Class.Lowers T settings) scope inherited items m) :
    ((Item.allDeclarations scope items).map Scoped.path).Perm (m.allClasses.map Class.path) := by
  have hpaths := h.entries.map Prod.fst
  rwa [List.map_map, List.map_map] at hpaths

end Module

namespace Classified

variable {settings : CheckSettings} {file : InterfaceFile} {table : SymbolTable} {m : Module}

theorem definedPaths_iff (h : Classified settings file table m) (q : QualifiedName) :
    q ∈ m.definedPaths ↔ q ∈ file.definedPaths := by
  rw [h.lowers.definedPaths, SymbolTable.declarations_settled, SymbolTable.definedPaths_survivors]
  rfl

/-- A forward declaration is settled once its class is defined. -/
theorem forwardPaths_iff (h : Classified settings file table m) (q : QualifiedName) :
    q ∈ m.forwardPaths ↔ q ∈ file.forwardPaths ∧ q ∉ file.definedPaths := by
  rw [h.lowers.forwardPaths, SymbolTable.declarations_settled]
  exact h.records.forwardPaths_survivors h.wellnamed.declared

/-- No two classes of the tree share a qualified name. -/
theorem names_nodup (h : Classified settings file table m) :
    (m.allClasses.map Class.qualifiedName).Nodup := by
  have hpaths := h.lowers.paths.map QualifiedName.text
  rw [List.map_map, List.map_map, SymbolTable.declarations_settled] at hpaths
  refine hpaths.nodup_iff.mp (List.pairwise_map.mpr ?_)
  exact h.records.survivors_pairwise h.wellnamed.declared h.distinct

end Classified

/-- Whatever is compiled can be printed and read back. -/
theorem Compiled.canonical {settings : CheckSettings} {file : InterfaceFile} {table : SymbolTable}
    {m : Module} (h : Compiled settings file table m) : m.Canonical := by
  obtain ⟨hclasses, hnamespaces⟩ := h.lowers.canonical (h.spelled.settleAll table [] [])
    fun scope inherited decl c hmem hc => by
      rw [SymbolTable.declarations_settled] at hmem
      have hdecl : ⟨scope, decl⟩ ∈ file.definitions :=
        InterfaceFile.mem_definitions_iff.mpr (settle_sublist.subset hmem)
      have hspelled : decl.Spelled := h.spelled.classes (settle_sublist.subset hmem) rfl
      exact hc.canonical hspelled fun position type htype r hr => h.canonical_type hdecl htype hr
  refine ⟨hclasses, hnamespaces, ?_, fun c hc r hr hkind => ?_⟩
  · -- the texts of the paths differ already, and so do the paths
    refine List.Nodup.of_map QualifiedName.text ?_
    rw [List.map_map]
    exact h.names_nodup
  · obtain ⟨d, hd, position, type, htype, hscope, hlowers⟩ := h.exists_occurrence hc hr
    cases hlowers with
    | @builtin b wrapped _ hw =>
      obtain ⟨rfl, -⟩ := Builtin.wrapping_eq_ok hw
      exact absurd hkind (by simp [TypeRef.ofBuiltin, b.isClass_kind])
    | @reference reference wrapped hbuiltin href hw =>
      obtain ⟨-, hexternal, hdenotes⟩ := h.reference hd htype hbuiltin href
      rw [hscope, h.definedPaths_iff]
      refine ⟨hdenotes.self h.definedPaths_iff fun q hq => ?_, ?_⟩
      · rw [h.forwardPaths_iff]
        exact and_iff_left hq
      · have horigin : (TypeRef.ofReference wrapped position reference).origin = some .external ↔
            reference.external = true := by
          cases hext : reference.external <;> simp [TypeRef.ofReference, hext]
        exact horigin.trans hexternal

/-- Accepted modules are canonical. -/
theorem Module.canonical_of_ofText {settings : Settings} {text : String} {m : Module}
    (h : Module.ofText settings text = .ok m) : m.Canonical := by
  obtain ⟨file, table, hm⟩ := compiled_of_ofText h
  exact hm.canonical

end BindingIdl
