import BindingIdl.Proofs.Module.Canonical

/-!
# Where the classes of a file stand

A `Placement` is a class with a body together with all the namespaces around it. Its scope and the
header it inherits can be read off these, so the classification of a file is that of its placements
one after another, whatever the nesting: `Item.classifyAll_eq_error_iff` for the first fault and
`Module.Lowers.placed` for the tree.

For an accepted file this gives the classes of the tree without the tree, in
`Classified.mem_allClasses_iff`: those that its placements become, and one stub for each path that
is only forward declared. As no qualified name is there twice, a search by name finds each of them.
-/

namespace BindingIdl

open Declaration

/-! ## Placements -/

namespace NamespaceHead

/-- The scope inside namespaces, the outermost given first. -/
def scopeOf (around : List NamespaceHead) : List String := around.flatMap (·.name.toList)

/-- The header that the nearest of the namespaces names, if any of them names one. -/
def headerOf? (around : List NamespaceHead) : Option String :=
  around.reverse.findSome? fun head => head.override.map (·.path)

theorem scopeOf_concat (around : List NamespaceHead) (head : NamespaceHead) :
    scopeOf (around ++ [head]) = scopeOf around ++ head.name.toList := by
  simp [scopeOf]

/-- The innermost namespace with a header decides. -/
theorem headerOf?_concat (around : List NamespaceHead) (head : NamespaceHead) :
    headerOf? (around ++ [head]) = ((head.override.map (·.path)) <|> headerOf? around) := by
  rw [headerOf?, List.reverse_append, List.reverse_singleton, List.singleton_append,
    List.findSome?_cons]
  cases head.override <;> rfl

end NamespaceHead

/-- A class with a body and the namespaces around it, the outermost first. -/
structure Placement where
  around : List NamespaceHead
  decl : ClassDecl
deriving Repr

namespace Placement

/-- The names of the namespaces around; one without a name adds none. -/
def scope (p : Placement) : List String := NamespaceHead.scopeOf p.around

/-- The path that the class is looked up by. -/
def path (p : Placement) : QualifiedName := ⟨p.scope, p.decl.name⟩

/-- The class as the symbol table sees it. -/
def definition (p : Placement) : Scoped ClassDecl := ⟨p.scope, p.decl⟩

/-- The header named right before the class. -/
def override (p : Placement) : Option String := p.decl.override.map (·.path)

/-- The header named for the class, else the one for the nearest namespace that has one, else the
one that its name suggests. -/
def header (p : Placement) : String :=
  (p.override <|> NamespaceHead.headerOf? p.around).getD (conventionalHeader p.decl.name)

/-- The class that a placement is classified as. -/
def classify (table : SymbolTable) (settings : CheckSettings) (p : Placement) :
    Except Diagnostic Class :=
  Class.ofDecl table settings p.scope (NamespaceHead.headerOf? p.around) p.decl

end Placement

mutual

/-- The placements of an item inside namespaces, in reading order. -/
def Item.placements (around : List NamespaceHead) : Item → List Placement
  | .space head items => Item.allPlacements (around ++ [head]) items
  | .definition decl => [⟨around, decl⟩]
  | .forward _ => []

/-- The placements of a list of items inside namespaces, in reading order. -/
def Item.allPlacements (around : List NamespaceHead) : List Item → List Placement
  | [] => []
  | item :: rest => item.placements around ++ Item.allPlacements around rest

end

/-- All classes with a body, in reading order. -/
def InterfaceFile.placements (file : InterfaceFile) : List Placement :=
  Item.allPlacements [] file.items

/-- Placements refine the definitions of a file. -/
theorem Item.definitions_eq_placements (around : List NamespaceHead) (items : List Item) :
    Declaration.definitions (Item.allDeclarations (NamespaceHead.scopeOf around) items) =
      (Item.allPlacements around items).map Placement.definition := by
  induction items using Item.induction generalizing around with
  | nil => rfl
  | space head items rest ih ihrest =>
    have hinner := ih (around ++ [head])
    rw [NamespaceHead.scopeOf_concat] at hinner
    rw [Item.allDeclarations, Item.declarations, Item.allPlacements, Item.placements,
      List.map_append, ← hinner, ← ihrest, Declaration.definitions, Declaration.definitions,
      Declaration.definitions, List.filterMap_append]
  | definition decl rest ih =>
    exact congrArg (_ :: ·) (ih around)
  | forward decl rest ih => exact ih around

/-- A placement is a definition that remembers its namespaces. -/
theorem InterfaceFile.definitions_eq_placements (file : InterfaceFile) :
    file.definitions = file.placements.map Placement.definition :=
  Item.definitions_eq_placements [] file.items

theorem InterfaceFile.mem_definitions_of_placement {file : InterfaceFile} {p : Placement}
    (hp : p ∈ file.placements) : p.definition ∈ file.definitions :=
  file.definitions_eq_placements ▸ List.mem_map_of_mem hp

/-- Settling drops forward declarations only. -/
theorem Item.allPlacements_settleAll (table : SymbolTable) (around : List NamespaceHead)
    (scope placed : List String) (items : List Item) :
    Item.allPlacements around (settleAll table scope placed items).1 =
      Item.allPlacements around items := by
  induction items using Item.induction generalizing around scope placed with
  | nil => rfl
  | space head items rest ih ihrest =>
    rw [settleAll, settle]
    dsimp only
    rw [List.singleton_append, Item.allPlacements, Item.allPlacements, Item.placements,
      Item.placements, ih, ihrest]
  | definition decl rest ih =>
    rw [settleAll, settle]
    dsimp only
    rw [List.singleton_append, Item.allPlacements, Item.allPlacements, ih]
  | forward decl rest ih =>
    rw [settleAll, settle]
    dsimp only
    split
    · exact ih around scope _
    · exact ih around scope _

/-! ## Faults -/

/-- Items fail to be classified as their placements do, with the first that fails. -/
theorem Item.classifyAll_eq_error_iff {table : SymbolTable} {settings : CheckSettings}
    {around : List NamespaceHead} {items : List Item} {e : Diagnostic} :
    classifyAll table settings (NamespaceHead.scopeOf around) (NamespaceHead.headerOf? around)
        items = .error e ↔
      (Item.allPlacements around items).mapM (Placement.classify table settings) = .error e := by
  induction items using Item.induction generalizing around e with
  | nil => simp [classifyAll, Item.allPlacements, Pure.pure, Except.pure]
  | space head items rest ih ihrest =>
    -- what comes behind the namespace is reached only if nothing inside fails
    have hinner (e : Diagnostic) := @ih (around ++ [head]) e
    rw [NamespaceHead.scopeOf_concat, NamespaceHead.headerOf?_concat] at hinner
    have hinner_ok := Except.exists_ok_iff_of_error_iff hinner
    rw [Item.allPlacements, Item.placements, Except.mapM_append_eq_error_iff, ← hinner_ok,
      classifyAll, classify]
    simp only [Except.bind_eq_error_iff, Except.bind_eq_ok_iff, Pure.pure, Except.pure, hinner,
      ihrest, reduceCtorEq, and_false, exists_false, or_false, Except.ok.injEq]
    refine or_congr_right ?_
    constructor
    · rintro ⟨_, ⟨inside, hinside, -⟩, hrest⟩
      exact ⟨⟨inside, hinside⟩, hrest⟩
    · rintro ⟨⟨inside, hinside⟩, hrest⟩
      exact ⟨_, ⟨inside, hinside, rfl⟩, hrest⟩
  | definition decl rest ih =>
    rw [Item.allPlacements, Item.placements, List.singleton_append, Except.mapM_cons_eq_error_iff,
      classifyAll, classify, Placement.classify]
    simp only [Except.bind_eq_error_iff, Except.bind_eq_ok_iff, Pure.pure, Except.pure, ih,
      reduceCtorEq, and_false, exists_false, or_false, Except.ok.injEq]
    refine or_congr_right ?_
    constructor
    · rintro ⟨_, ⟨c, hc, -⟩, hrest⟩
      exact ⟨⟨c, hc⟩, hrest⟩
    · rintro ⟨⟨c, hc⟩, hrest⟩
      exact ⟨_, ⟨c, hc, rfl⟩, hrest⟩
  | forward decl rest ih =>
    rw [Item.allPlacements, Item.placements, List.nil_append, classifyAll, classify]
    simp [Except.bind_eq_error_iff, Pure.pure, Except.pure, ih]

/-- The check fails with the first class that cannot be classified. -/
theorem Module.ofFile_eq_error_iff {settings : CheckSettings} {table : SymbolTable}
    {file : InterfaceFile} {e : Diagnostic} : ofFile settings table file = .error e ↔
      file.placements.mapM (Placement.classify table settings) = .error e := by
  rw [ofFile, show ([] : List String) = NamespaceHead.scopeOf [] from rfl,
    show (none : Option String) = NamespaceHead.headerOf? [] from rfl,
    Item.classifyAll_eq_error_iff, Item.allPlacements_settleAll]
  rfl

/-- Whether there is a module is decided class by class. -/
theorem Module.exists_ofFile_eq_ok_iff {settings : CheckSettings} {table : SymbolTable}
    {file : InterfaceFile} : (∃ m, ofFile settings table file = .ok m) ↔
      ∀ p ∈ file.placements, ∃ c, p.classify table settings = .ok c := by
  rw [← Except.exists_mapM_eq_ok_iff]
  exact Except.exists_ok_iff_of_error_iff fun e => ofFile_eq_error_iff

/-! ## The classes of the tree -/

/-- The class in the tree for a path that is only forward declared. -/
def Class.stub (q : QualifiedName) : Class :=
  ⟨q.name, q.namespaces, none, conventionalHeader q.name, true, []⟩

theorem Declaration.forwardPaths_append (ds es : List (Scoped Declaration)) :
    forwardPaths (ds ++ es) = forwardPaths ds ++ forwardPaths es := by
  simp [forwardPaths]

theorem append_append_perm {α : Type} (as bs cs ds : List α) :
    ((as ++ bs) ++ (cs ++ ds)).Perm ((as ++ cs) ++ (bs ++ ds)) := by
  rw [List.append_assoc, List.append_assoc]
  exact (List.perm_append_comm_assoc bs cs ds).append_left as

/-- The tree holds what the placements become, and a stub for each forward declaration. -/
theorem Module.Lowers.placed {C : List String → Option String → ClassDecl → Class → Prop}
    (around : List NamespaceHead) {items : List Item} {m : Module}
    (h : Lowers C (NamespaceHead.scopeOf around) (NamespaceHead.headerOf? around) items m) :
    ∃ cs, List.Forall₂ (fun p c => C p.scope (NamespaceHead.headerOf? p.around) p.decl c)
        (Item.allPlacements around items) cs ∧
      (cs ++ (Declaration.forwardPaths
        (Item.allDeclarations (NamespaceHead.scopeOf around) items)).map Class.stub).Perm
          m.allClasses := by
  induction items using Item.induction generalizing around m with
  | nil =>
    cases h
    exact ⟨[], .nil, .nil⟩
  | space head items rest ih ihrest =>
    cases h with
    | @space _ _ _ _ _ inside m hinside hrest =>
      rw [← NamespaceHead.scopeOf_concat, ← NamespaceHead.headerOf?_concat] at hinside
      obtain ⟨cs, hcs, hperm⟩ := ih _ hinside
      obtain ⟨ds, hds, hperm'⟩ := ihrest _ hrest
      rw [NamespaceHead.scopeOf_concat] at hperm
      refine ⟨cs ++ ds, List.rel_append hcs hds, ?_⟩
      -- the classes of a level stand before those of its namespaces, whatever the file's order
      rw [Item.allDeclarations, Item.declarations, forwardPaths_append, List.map_append]
      refine (append_append_perm cs ds _ _).trans ((hperm.append hperm').trans ?_)
      exact List.perm_append_comm_assoc inside.allClasses m.classes
        (Namespace.classesOfAll m.namespaces)
  | definition decl rest ih =>
    cases h with
    | definition hc hm =>
      obtain ⟨cs, hcs, hperm⟩ := ih _ hm
      exact ⟨_ :: cs, .cons hc hcs, hperm.cons _⟩
  | forward decl rest ih =>
    cases h with
    | forward hm =>
      obtain ⟨cs, hcs, hperm⟩ := ih _ hm
      exact ⟨cs, hcs, List.perm_middle.trans (hperm.cons _)⟩

/-! ## Accepted files -/

/-- Where no qualified name is there twice, a search finds the class that has it. -/
theorem Module.lookup_eq_some_iff {m : Module} {name : String} {c : Class}
    (hnames : (m.allClasses.map Class.qualifiedName).Nodup) :
    m.lookup name = some c ↔ c ∈ m.allClasses ∧ c.qualifiedName = name := by
  constructor
  · intro h
    exact ⟨List.mem_of_find?_eq_some h, by simpa using List.find?_some h⟩
  · rintro ⟨hc, rfl⟩
    cases hfound : m.lookup c.qualifiedName with
    | none => exact absurd (by simp) (List.find?_eq_none.mp hfound c hc)
    | some c' =>
      have hsame : c'.qualifiedName = c.qualifiedName := by simpa using List.find?_some hfound
      rw [List.inj_on_of_nodup_map hnames (List.mem_of_find?_eq_some hfound) hc hsame]

namespace Classified

variable {settings : CheckSettings} {file : InterfaceFile} {table : SymbolTable} {m : Module}

/-- The classes of a module are the classified definitions, and a stub for each forward declaration
that survives. -/
theorem placed (h : Classified settings file table m) :
    ∃ cs, List.Forall₂ (fun p c => p.classify table settings = .ok c) file.placements cs ∧
      (cs ++ (Declaration.forwardPaths (table.survivors file.declarations)).map Class.stub).Perm
        m.allClasses := by
  obtain ⟨cs, hcs, hperm⟩ := h.lowers.placed []
  rw [Item.allPlacements_settleAll] at hcs
  rw [show NamespaceHead.scopeOf [] = [] from rfl, SymbolTable.declarations_settled] at hperm
  exact ⟨cs, hcs.imp fun p c hc => Class.ofDecl_eq_ok_iff.mpr hc, hperm⟩

/-- The classes of the tree, without the tree. -/
theorem mem_allClasses_iff (h : Classified settings file table m) {c : Class} :
    c ∈ m.allClasses ↔ (∃ p ∈ file.placements, p.classify table settings = .ok c) ∨
      ∃ q, (q ∈ file.forwardPaths ∧ q ∉ file.definedPaths) ∧ Class.stub q = c := by
  obtain ⟨cs, hcs, hperm⟩ := h.placed
  rw [← hperm.mem_iff, List.mem_append, List.mem_map]
  refine or_congr ⟨fun hc => exists_of_forall₂ hcs hc, ?_⟩ ?_
  · rintro ⟨p, hp, hpc⟩
    obtain ⟨c', hc', hpc'⟩ := exists_of_forall₂ hcs.flip hp
    rwa [Except.ok.inj (hpc.symm.trans hpc')]
  · exact exists_congr fun q => and_congr_left fun _ =>
      h.records.forwardPaths_survivors h.wellnamed.declared

end Classified

end BindingIdl
