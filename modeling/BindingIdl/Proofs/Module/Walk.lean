import BindingIdl.Proofs.Module.Placement
import BindingIdl.Proofs.Module.Canonical

/-!
# Two ways to a class

A class is found by its full path, or by going into one namespace after another. The first way looks
through the whole tree. The second goes into the first opening of each name, while a namespace may
be opened again later and the tree keeps each opening apart. `Namespace.openings` goes into all of
them, and that is what the search by path comes to, as long as no namespace is anonymous.

So the walk finds no class but the one that the search finds, and it finds that one unless a name
on its way is opened more than once. It can miss a class that stands in a later opening
(`Module.walk?_misses_reopened`).
-/

namespace BindingIdl

/-! ## Openings -/

namespace Namespace

/-- All openings of the namespace with a name. -/
def opened (spaces : List Namespace) (name : String) : List Namespace :=
  spaces.filter (·.name = some name)

/-- The openings reached by going into one name after another, into all openings of each. -/
def openings (space : Namespace) : List String → List Namespace
  | [] => [space]
  | name :: rest => (opened space.namespaces name).flatMap (openings · rest)

/-- No name on the way is opened more than once. -/
def OpensOnce (space : Namespace) : List String → Prop
  | [] => True
  | name :: rest => (opened space.namespaces name).length ≤ 1 ∧
      ∀ inner ∈ opened space.namespaces name, inner.OpensOnce rest

/-- No namespace is anonymous, at any depth. -/
inductive AllNamed : List Namespace → Prop where
  | nil : AllNamed []
  | cons {name path override namespaces classes rest} : AllNamed namespaces → AllNamed rest →
      AllNamed (⟨some name, path, override, namespaces, classes⟩ :: rest)

theorem mem_opened {spaces : List Namespace} {name : String} {space : Namespace} :
    space ∈ opened spaces name ↔ space ∈ spaces ∧ space.name = some name := by
  simp [opened]

/-- A walk goes into the first opening. -/
theorem named?_eq_head? (spaces : List Namespace) (name : String) :
    named? spaces name = (opened spaces name).head? :=
  List.head?_filter.symm

/-- The openings of a longer path are inside those of its beginning. -/
theorem mem_openings_cons {space o : Namespace} {name : String} {rest : List String} :
    o ∈ space.openings (name :: rest) ↔
      ∃ inner ∈ space.namespaces, inner.name = some name ∧ o ∈ inner.openings rest := by
  simp only [openings, List.mem_flatMap, mem_opened, and_assoc]

/-- A walk ends in one of the openings. -/
theorem mem_openings_of_foldlM {space o : Namespace} {names : List String}
    (h : names.foldlM namespace? space = some o) : o ∈ space.openings names := by
  induction names generalizing space with
  | nil => simp_all [openings]
  | cons name rest ih =>
    rw [List.foldlM_cons] at h
    obtain ⟨inner, hinner, hrest⟩ := Option.bind_eq_some_iff.mp h
    rw [namespace?, named?_eq_head?] at hinner
    obtain ⟨hmem, hname⟩ := mem_opened.mp (List.mem_of_head? hinner)
    exact mem_openings_cons.mpr ⟨inner, hmem, hname, ih hrest⟩

/-- Where nothing on the way is opened twice, the walk ends in all the openings there are. -/
theorem OpensOnce.openings {space : Namespace} {names : List String} (h : space.OpensOnce names) :
    space.openings names = (names.foldlM namespace? space).toList := by
  induction names generalizing space with
  | nil => rfl
  | cons name rest ih =>
    obtain ⟨hlength, hinner⟩ := h
    rw [List.foldlM_cons, namespace?, named?_eq_head?, Namespace.openings]
    cases hopened : opened space.namespaces name with
    | nil => rfl
    | cons inner others =>
      rw [hopened, List.length_cons] at hlength
      rw [List.length_eq_zero_iff.mp (Nat.le_zero.mp (Nat.le_of_succ_le_succ hlength)),
        List.flatMap_singleton]
      exact ih (hinner inner (hopened ▸ List.mem_cons_self))

/-- Every class stands in an opening that some way leads to, if each namespace has a name. -/
theorem AllNamed.exists_opening {spaces : List Namespace} (h : AllNamed spaces) {c : Class}
    (hc : c ∈ classesOfAll spaces) : ∃ space ∈ spaces, ∃ name, space.name = some name ∧
      ∃ rest, ∃ o ∈ space.openings rest, c ∈ o.classes := by
  induction h with
  | nil => cases hc
  | @cons name path override namespaces classes rest _ _ ih ihrest =>
    rw [classesOfAll, allClasses, List.append_assoc, List.mem_append, List.mem_append] at hc
    obtain hc | hc | hc := hc
    · exact ⟨_, List.mem_cons_self, name, rfl, [], _, List.mem_singleton_self _, hc⟩
    · obtain ⟨inner, hinner, below, hbelow, way, o, ho, hco⟩ := ih hc
      exact ⟨_, List.mem_cons_self, name, rfl, below :: way, o,
        mem_openings_cons.mpr ⟨inner, hinner, hbelow, ho⟩, hco⟩
    · obtain ⟨space, hspace, hfound⟩ := ihrest hc
      exact ⟨space, List.mem_cons_of_mem _ hspace, hfound⟩

theorem mem_classesOfAll {spaces : List Namespace} {space : Namespace} (h : space ∈ spaces)
    {c : Class} (hc : c ∈ space.allClasses) : c ∈ classesOfAll spaces := by
  induction spaces with
  | nil => cases h
  | cons first rest ih =>
    rw [classesOfAll, List.mem_append]
    obtain rfl | h := List.mem_cons.mp h
    · exact .inl hc
    · exact .inr (ih h)

/-- The classes of an opening are classes of the tree. -/
theorem mem_allClasses_of_mem_openings {space o : Namespace} {names : List String} {c : Class}
    (ho : o ∈ space.openings names) (hc : c ∈ o.classes) : c ∈ space.allClasses := by
  induction names generalizing space with
  | nil =>
    obtain rfl := List.mem_singleton.mp ho
    cases o
    exact List.mem_append_left _ hc
  | cons name rest ih =>
    obtain ⟨inner, hinner, -, hinside⟩ := mem_openings_cons.mp ho
    cases space
    exact List.mem_append_right _ (mem_classesOfAll hinner (ih hinside))

/-! ## Classes under their paths -/

/-- A namespace in its place, where `scope` leads to it. -/
structure CanonicalIn (scope : List String) (inherited : Option String) (space : Namespace) :
    Prop where
  classes : ∀ c ∈ space.classes, c.Canonical scope inherited
  namespaces : AllCanonical scope inherited space.namespaces

theorem AllCanonical.mem {scope : List String} {inherited : Option String}
    {spaces : List Namespace} (h : AllCanonical scope inherited spaces) {space : Namespace}
    (hspace : space ∈ spaces) :
    ∃ inherited', space.CanonicalIn (scope ++ space.name.toList) inherited' := by
  induction h with
  | nil => cases hspace
  | cons _ _ hnamespaces hclasses _ _ ihrest =>
    obtain rfl | hspace := List.mem_cons.mp hspace
    · exact ⟨_, hclasses, hnamespaces⟩
    · exact ihrest hspace

/-- An opening of names is a namespace in the scope of these names. -/
theorem CanonicalIn.openings {scope : List String} {inherited : Option String}
    {space o : Namespace} (h : space.CanonicalIn scope inherited) {names : List String}
    (ho : o ∈ space.openings names) : ∃ inherited', o.CanonicalIn (scope ++ names) inherited' := by
  induction names generalizing space scope inherited with
  | nil =>
    obtain rfl := List.mem_singleton.mp ho
    exact ⟨inherited, by rwa [List.append_nil]⟩
  | cons name rest ih =>
    obtain ⟨inner, hinner, hname, ho⟩ := mem_openings_cons.mp ho
    obtain ⟨inherited', hcanonical⟩ := h.namespaces.mem hinner
    rw [hname] at hcanonical
    rw [List.append_cons]
    exact ih hcanonical ho

end Namespace

theorem Class.Canonical.namespaces {scope : List String} {inherited : Option String} {c : Class}
    (h : c.Canonical scope inherited) : c.namespaces = scope := by
  cases h <;> rfl

namespace Module

/-- The top level as a namespace around everything. -/
def root (m : Module) : Namespace := ⟨none, [], none, m.namespaces, m.classes⟩

/-- A walk is one step for each name, from the root on. -/
theorem walk?_eq_foldlM (m : Module) {names : List String} (h : names ≠ []) :
    m.walk? names = names.foldlM Namespace.namespace? m.root := by
  cases names with
  | nil => exact absurd rfl h
  | cons => rfl

/-- The opening that a class stands in tells its namespaces. -/
theorem Canonical.namespaces_of_opening {m : Module} (h : m.Canonical) {names : List String}
    {o : Namespace} (ho : o ∈ m.root.openings names) {c : Class} (hc : c ∈ o.classes) :
    c.namespaces = names := by
  have hroot : m.root.CanonicalIn [] none := ⟨h.classes, h.namespaces⟩
  obtain ⟨inherited, ho⟩ := hroot.openings ho
  exact (ho.classes c hc).namespaces

/-- The namespaces of a class tell the openings it can stand in, if none of them is anonymous. -/
theorem Canonical.exists_opening {m : Module} (h : m.Canonical)
    (hnamed : Namespace.AllNamed m.namespaces) {c : Class} (hc : c ∈ m.allClasses) :
    ∃ o ∈ m.root.openings c.namespaces, c ∈ o.classes := by
  obtain ⟨names, o, ho, hco⟩ : ∃ names, ∃ o ∈ m.root.openings names, c ∈ o.classes := by
    obtain hc | hc := List.mem_append.mp hc
    · exact ⟨[], m.root, List.mem_singleton_self _, hc⟩
    · obtain ⟨space, hspace, name, hname, rest, o, ho, hco⟩ := hnamed.exists_opening hc
      exact ⟨name :: rest, o, Namespace.mem_openings_cons.mpr ⟨space, hspace, hname, ho⟩, hco⟩
  exact ⟨o, (h.namespaces_of_opening ho hco).symm ▸ ho, hco⟩

/-- The tree opens a namespace for each one in the file. -/
theorem Lowers.allNamed {C : List String → Option String → ClassDecl → Class → Prop}
    {scope : List String} {inherited : Option String} {items : List Item} {m : Module}
    (h : Lowers C scope inherited items m)
    (hnamed : ∀ head ∈ Item.allHeads items, head.name.isSome = true) :
    Namespace.AllNamed m.namespaces := by
  induction h with
  | nil => exact .nil
  | @space _ _ head _ _ _ _ _ _ ih ihrest =>
    rw [Item.allHeads, Item.heads, List.cons_append, List.forall_mem_cons,
      List.forall_mem_append] at hnamed
    obtain ⟨name, hname⟩ := Option.isSome_iff_exists.mp hnamed.1
    simp only [hname]
    exact .cons (ih hnamed.2.1) (ihrest hnamed.2.2)
  | definition _ _ ih => exact ih hnamed
  | forward _ ih => exact ih hnamed

end Module

/-- Settling drops no namespace. -/
theorem Item.allHeads_settleAll (table : SymbolTable) (scope placed : List String)
    (items : List Item) : Item.allHeads (Item.settleAll table scope placed items).1 =
      Item.allHeads items := by
  induction items using Item.induction generalizing scope placed with
  | nil => rfl
  | space head items rest ih ihrest =>
    rw [Item.settleAll, Item.settle]
    simp only [List.singleton_append, Item.allHeads, Item.heads, ih, ihrest]
  | definition decl rest ih =>
    rw [Item.settleAll, Item.settle]
    exact ih _ _
  | forward decl rest ih =>
    rw [Item.settleAll, Item.settle]
    dsimp only
    split <;> exact ih _ _

/-! ## The search by path -/

section

variable {settings : CheckSettings} {file : InterfaceFile} {table : SymbolTable} {m : Module}

/-- A class of the tree has the path that is looked up when it has the namespaces and the name. -/
theorem Compiled.lookup_eq_some_iff (h : Compiled settings file table m) {q : QualifiedName}
    (hq : q.Wellformed) {c : Class} : m.lookup q.text = some c ↔ c ∈ m.allClasses ∧ c.path = q := by
  rw [Module.lookup_eq_some_iff h.names_nodup]
  refine and_congr_right fun hc => ⟨fun htext => ?_, fun hpath => hpath ▸ rfl⟩
  obtain ⟨d, hd, hof⟩ := h.exists_survivor hc
  obtain ⟨hnamespaces, hname, -⟩ := hof.place
  have hpath : c.path = d.path := by rw [Class.path, hnamespaces, hname, Scoped.path]
  refine QualifiedName.text_injective (hpath ▸ h.wellnamed.declared d ?_) hq htext
  exact Declaration.settle_sublist.subset hd

/-- A class in some opening of a path is the one that the whole path leads to. -/
theorem Compiled.lookup_of_opening (h : Compiled settings file table m) {names : List String}
    {name : String} (hq : QualifiedName.Wellformed ⟨names, name⟩) {o : Namespace}
    (ho : o ∈ m.root.openings names) {c : Class} (hc : o.class? name = some c) :
    m.lookup (QualifiedName.text ⟨names, name⟩) = some c := by
  have hmem : c ∈ o.classes := List.mem_of_find?_eq_some hc
  have hname : c.name = name := by simpa using List.find?_some hc
  refine (h.lookup_eq_some_iff hq).mpr ⟨Namespace.mem_allClasses_of_mem_openings ho hmem, ?_⟩
  rw [Class.path, h.canonical.namespaces_of_opening ho hmem, hname]

/-- A search by path is a search through all openings. -/
theorem Compiled.lookup_eq_findSome? (h : Compiled settings file table m)
    (hnamed : ∀ head ∈ file.heads, head.name.isSome = true) {names : List String} {name : String}
    (hq : QualifiedName.Wellformed ⟨names, name⟩) :
    m.lookup (QualifiedName.text ⟨names, name⟩) =
      (m.root.openings names).findSome? (·.class? name) := by
  cases hfound : (m.root.openings names).findSome? (·.class? name) with
  | some c =>
    obtain ⟨o, ho, hc⟩ := List.exists_of_findSome?_eq_some hfound
    exact h.lookup_of_opening hq ho hc
  | none =>
    rw [Option.eq_none_iff_forall_ne_some]
    intro c hc
    obtain ⟨hc, hpath⟩ := (h.lookup_eq_some_iff hq).mp hc
    have htree : Namespace.AllNamed m.namespaces :=
      h.lowers.allNamed (by rwa [Item.allHeads_settleAll])
    obtain ⟨o, ho, hco⟩ := h.canonical.exists_opening htree hc
    obtain ⟨rfl, rfl⟩ := QualifiedName.mk.inj hpath
    have hnone : o.class? c.name = none := List.findSome?_eq_none_iff.mp hfound o ho
    exact absurd (by simp) (List.find?_eq_none.mp hnone c hco)

end

/-- Without anonymous namespaces, the search by path looks through every opening of the namespaces
on the way. The walk finds no other class, and finds it where no name is opened more than once. -/
theorem Module.lookup_and_walk? {settings : Settings} {text : String} {file : InterfaceFile}
    {m : Module} {names : List String} {name : String} (h : Module.ofText settings text = .ok m)
    (hfile : InterfaceFile.ofText settings.grammar text = .ok file)
    (hnamed : ∀ head ∈ file.heads, head.name.isSome = true) (hnames : names ≠ [])
    (hidentifiers : ∀ s ∈ names, isIdentifier s = true) (hname : isIdentifier name = true) :
    m.lookup (QualifiedName.text ⟨names, name⟩) =
        (m.root.openings names).findSome? (·.class? name) ∧
      (∀ c, (m.walk? names).bind (·.class? name) = some c →
        m.lookup (QualifiedName.text ⟨names, name⟩) = some c) ∧
      (m.root.OpensOnce names →
        m.lookup (QualifiedName.text ⟨names, name⟩) = (m.walk? names).bind (·.class? name)) := by
  obtain ⟨file', hfile', hmodule⟩ := ofText_eq_ok_iff.mp h
  obtain rfl := Except.ok.inj (hfile.symm.trans hfile')
  obtain ⟨table, hm⟩ := InterfaceFile.compiled_of_module hfile hmodule
  have hq : QualifiedName.Wellformed ⟨names, name⟩ :=
    QualifiedName.wellformed_mk_iff.mpr ⟨hidentifiers, hname⟩
  have hlookup := hm.lookup_eq_findSome? hnamed hq
  refine ⟨hlookup, fun c hc => ?_, fun honce => ?_⟩
  · obtain ⟨o, ho, hc⟩ := Option.bind_eq_some_iff.mp hc
    rw [m.walk?_eq_foldlM hnames] at ho
    exact hm.lookup_of_opening hq (Namespace.mem_openings_of_foldlM ho) hc
  · rw [hlookup, m.walk?_eq_foldlM hnames, honce.openings]
    cases names.foldlM Namespace.namespace? m.root with
    | none => rfl
    | some o => simp

/-- What can be seen by running the text: it is accepted, and has no anonymous namespace. -/
theorem Module.ofText_of_run {text : String} {m : Module}
    (hrun : (Module.ofText default text).toOption = some m)
    (hheads : (InterfaceFile.ofText (default : Settings).grammar text).toOption.map
      (·.heads.all (·.name.isSome)) = some true) :
    Module.ofText default text = .ok m ∧
      ∃ file, InterfaceFile.ofText (default : Settings).grammar text = .ok file ∧
        ∀ head ∈ file.heads, head.name.isSome = true := by
  have htext := Except.eq_ok_of_toOption hrun
  obtain ⟨file, hfile, -⟩ := ofText_eq_ok_iff.mp htext
  rw [hfile] at hheads
  exact ⟨htext, file, hfile, List.all_eq_true.mp (Option.some.inj hheads)⟩

/-- The namespace `geo`, opened twice. The walk goes into the first opening, which has `Point`; only
the search by path finds `Line`. -/
def twiceText : String :=
  "namespace geo \x7b\nclass Point \x7b\n\x7d;\n\x7d\n" ++
    "namespace geo \x7b\nclass Line \x7b\n\x7d;\n\x7d\n"

/-- What is read from that text: the openings stay apart. -/
def twiceModule : Module :=
  ⟨[⟨some "geo", ["geo"], none, [], [⟨"Point", ["geo"], none, "Point.h", false, []⟩]⟩,
    ⟨some "geo", ["geo"], none, [], [⟨"Line", ["geo"], none, "Line.h", false, []⟩]⟩], []⟩

theorem Module.ofText_twiceText : Module.ofText default twiceText = .ok twiceModule ∧
    ∃ file, InterfaceFile.ofText (default : Settings).grammar twiceText = .ok file ∧
      ∀ head ∈ file.heads, head.name.isSome = true :=
  ofText_of_run (by decide +kernel) (by decide +kernel)

/-- Here `geo` and `geo::flat` are opened once each, although `flat` is opened elsewhere too. -/
def nestedText : String :=
  "namespace geo \x7b\nnamespace flat \x7b\nclass Point \x7b\n\x7d;\n\x7d\n\x7d\n" ++
    "namespace flat \x7b\nclass Line \x7b\n\x7d;\n\x7d\n"

def nestedModule : Module :=
  ⟨[⟨some "geo", ["geo"], none, [⟨some "flat", ["geo", "flat"], none, [],
      [⟨"Point", ["geo", "flat"], none, "Point.h", false, []⟩]⟩], []⟩,
    ⟨some "flat", ["flat"], none, [], [⟨"Line", ["flat"], none, "Line.h", false, []⟩]⟩], []⟩

theorem Module.ofText_nestedText : Module.ofText default nestedText = .ok nestedModule ∧
    ∃ file, InterfaceFile.ofText (default : Settings).grammar nestedText = .ok file ∧
      ∀ head ∈ file.heads, head.name.isSome = true :=
  ofText_of_run (by decide +kernel) (by decide +kernel)

/-- The other `flat` is at the root, so it is no opening of this path. -/
theorem Module.nestedModule_opensOnce : nestedModule.root.OpensOnce ["geo", "flat"] := by
  refine ⟨by decide, fun inner hinner => ⟨?_, fun _ _ => trivial⟩⟩
  obtain ⟨hmem, hname⟩ := Namespace.mem_opened.mp hinner
  obtain rfl | hmem := List.mem_cons.mp hmem
  · decide
  · obtain rfl := List.mem_singleton.mp hmem
    exact absurd hname (by decide)

/-- With two openings of `geo` the walk finds what is in the first of them; with one opening of each
name on the way, the walk and the search by path agree. -/
theorem Module.lookup_and_walk?_sampled :
    (twiceModule.lookup "geo::Point" =
        (twiceModule.root.openings ["geo"]).findSome? (·.class? "Point") ∧
      (∀ c, (twiceModule.walk? ["geo"]).bind (·.class? "Point") = some c →
        twiceModule.lookup "geo::Point" = some c) ∧
      (twiceModule.root.OpensOnce ["geo"] →
        twiceModule.lookup "geo::Point" =
          (twiceModule.walk? ["geo"]).bind (·.class? "Point"))) ∧
    nestedModule.root.OpensOnce ["geo", "flat"] ∧
    nestedModule.lookup "geo::flat::Point" =
      (nestedModule.walk? ["geo", "flat"]).bind (·.class? "Point") ∧
    nestedModule.lookup "geo::flat::Point" =
      some ⟨"Point", ["geo", "flat"], none, "Point.h", false, []⟩ := by
  constructor
  · obtain ⟨htext, file, hfile, hnamed⟩ := ofText_twiceText
    have hnames : ["geo"] ≠ [] := by decide
    have hidentifiers : ∀ s ∈ ["geo"], isIdentifier s = true := by decide
    have hname : isIdentifier "Point" = true := by decide
    exact lookup_and_walk? htext hfile hnamed hnames hidentifiers hname
  · obtain ⟨htext, file, hfile, hnamed⟩ := ofText_nestedText
    have hnames : ["geo", "flat"] ≠ [] := by decide
    have hidentifiers : ∀ s ∈ ["geo", "flat"], isIdentifier s = true := by decide
    have hname : isIdentifier "Point" = true := by decide
    obtain ⟨-, -, hwalk⟩ := lookup_and_walk? htext hfile hnamed hnames hidentifiers hname
    exact ⟨nestedModule_opensOnce, hwalk nestedModule_opensOnce, by decide⟩

/-- The walk can miss what the search by path finds. -/
theorem Module.walk?_misses_reopened :
    Module.ofText default twiceText = .ok twiceModule ∧
      (∃ file, InterfaceFile.ofText (default : Settings).grammar twiceText = .ok file ∧
        ∀ head ∈ file.heads, head.name.isSome = true) ∧
      isIdentifier "geo" = true ∧ isIdentifier "Line" = true ∧
      QualifiedName.text ⟨["geo"], "Line"⟩ = "geo::Line" ∧
      twiceModule.lookup "geo::Line" = some ⟨"Line", ["geo"], none, "Line.h", false, []⟩ ∧
      (twiceModule.walk? ["geo"]).bind (·.class? "Line") = none := by
  obtain ⟨htext, hfile⟩ := ofText_twiceText
  exact ⟨htext, hfile, by decide, by decide, by decide, by decide, by decide⟩

end BindingIdl
