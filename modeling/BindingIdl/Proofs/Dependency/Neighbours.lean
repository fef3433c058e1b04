import BindingIdl.Proofs.Dependency.BuildOrder
import BindingIdl.Proofs.Module.Canonical
import BindingIdl.Proofs.Module.Placement
import Mathlib.Data.List.ProdSigma

/-!
# Neighbours in a dependency graph

What a dependency graph is asked for are the neighbours of a name and the number of its edges.
`Module.IsMentionGraph` says what the answers should be, in terms of the signatures of the classes
only: who is mentioned is a dependency, in the order of the module and once, whoever mentions is a
dependent, and nothing that is mentioned as a class of the module is left out.

The graph answers so whenever no two classes share a name (`dependenciesOf_eq`, `dependentsOf_eq`,
`edges_perm`). That no mention is left out is a matter of the module: a reference to a declared
class spells the name of a class that the tree defines (`Classified.defined_of_mentions`).
-/

namespace BindingIdl

/-! ## Mentions -/

/-- An argument or a return type of the class is of a declared class of that name. -/
def Class.Mentions (c : Class) (name : String) : Prop :=
  ∃ member ∈ c.members, ∃ type : TypeRef,
    (member.returns? = some type ∨ ∃ arg ∈ member.args, arg.type = type) ∧
      type.origin = some .declared ∧ type.qualifiedName = name

/-- The arguments and results together are the types of the class. -/
theorem Class.mentions_iff {c : Class} {name : String} : c.Mentions name ↔
    ∃ type ∈ c.types, type.origin = some .declared ∧ type.qualifiedName = name := by
  have hmem (type : TypeRef) : type ∈ c.types ↔ ∃ member ∈ c.members,
      member.returns? = some type ∨ ∃ arg ∈ member.args, arg.type = type := by
    simp [Class.types, Member.types, List.mem_flatMap]
  constructor
  · rintro ⟨member, hmember, type, htype, horigin, hname⟩
    exact ⟨type, (hmem type).mpr ⟨member, hmember, htype⟩, horigin, hname⟩
  · rintro ⟨type, htype, horigin, hname⟩
    obtain ⟨member, hmember, htype⟩ := (hmem type).mp htype
    exact ⟨member, hmember, type, htype, horigin, hname⟩

instance (c : Class) (name : String) : Decidable (c.Mentions name) :=
  decidable_of_iff _ Class.mentions_iff.symm

/-- The other classes that a class mentions, as far as the module defines them. -/
def Module.mentionedBy (m : Module) (a : Class) : List Class :=
  m.definedClasses.filter fun b => b ≠ a ∧ a.Mentions b.qualifiedName

/-- The other classes of the module that mention a class. -/
def Module.mentioners (m : Module) (b : Class) : List Class :=
  m.definedClasses.filter fun a => a ≠ b ∧ a.Mentions b.qualifiedName

/-- The pairs of different classes of which the first mentions the second. -/
def Module.mentionPairs (m : Module) : List (Class × Class) :=
  (m.definedClasses ×ˢ m.definedClasses).filter fun pair =>
    pair.2 ≠ pair.1 ∧ pair.1.Mentions pair.2.qualifiedName

/-- A graph that answers what the signatures of the classes say. -/
structure Module.IsMentionGraph (m : Module) (g : DependencyGraph) : Prop where
  /-- The classes that a class mentions are its dependencies, in the order of the module. -/
  dependencies : ∀ a ∈ m.definedClasses,
    g.dependenciesOf a.qualifiedName = (m.mentionedBy a).map Class.qualifiedName
  /-- The classes that mention a class are its dependents, in the order of the module. -/
  dependents : ∀ b ∈ m.definedClasses,
    g.dependentsOf b.qualifiedName = (m.mentioners b).map Class.qualifiedName
  /-- No name is listed twice. -/
  nodup : ∀ name, (g.dependenciesOf name).Nodup ∧ (g.dependentsOf name).Nodup
  /-- What is mentioned is defined, so every mention of another class is an edge. -/
  complete : ∀ a ∈ m.definedClasses, ∀ name, a.Mentions name → name ≠ a.qualifiedName →
    name ∈ g.dependenciesOf a.qualifiedName
  edgeCount : g.edgeCount = m.mentionPairs.length
  /-- Classes that are only declared have no neighbours. -/
  stubs : ∀ c ∈ m.allClasses, c.forwardOnly = true →
    g.dependenciesOf c.qualifiedName = [] ∧ g.dependentsOf c.qualifiedName = []
  /-- Nor have names that no class has. -/
  unknown : ∀ name, m.lookup name = none → g.dependenciesOf name = [] ∧ g.dependentsOf name = []

/-! ## Edges are there once -/

namespace DependencyGraph

variable {g : DependencyGraph} {source target : Nat}

theorem nodup_addEdge (h : g.edges.Nodup) : (g.addEdge source target).edges.Nodup := by
  unfold addEdge
  split
  · exact h
  · rename_i hnew
    rw [Bool.or_eq_true, decide_eq_true_eq, decide_eq_true_eq, not_or] at hnew
    exact List.nodup_cons.mpr ⟨hnew.2, h⟩

theorem nodup_addMention (type : TypeRef) (h : g.edges.Nodup) :
    (g.addMention source type).edges.Nodup := by
  rw [addMention_eq]
  split
  · exact nodup_addEdge h
  · exact h

theorem nodup_addClass (c : Class) (h : g.edges.Nodup) : (g.addClass c).edges.Nodup := by
  unfold addClass
  split
  · exact List.foldlRecOn (motive := fun g : DependencyGraph => g.edges.Nodup) c.types _ h
      fun _ hg type _ => nodup_addMention type hg
  · exact h

/-- No edge of the graph of a module is there twice. -/
theorem nodup_edges (m : Module) : (ofModule m).edges.Nodup :=
  List.foldlRecOn (motive := fun g : DependencyGraph => g.edges.Nodup) m.definedClasses addClass
    List.nodup_nil
    fun _ hg c _ => nodup_addClass c hg

/-! ## Answers -/

variable {m : Module} {i j : Nat}

theorem mem_predecessors : i ∈ g.predecessors j ↔ (i, j) ∈ g.edges := by
  simp [predecessors]

/-- Edges that share one end are told apart by the other. -/
theorem nodup_ends (m : Module) {p : Nat × Nat → Bool} {f : Nat × Nat → Nat}
    (h : ∀ e e', p e = true → p e' = true → f e = f e' → e = e') :
    (((ofModule m).edges.filter p).map f).Nodup := by
  apply ((nodup_edges m).filter p).map_on
  intro e he e' he' hsame
  exact h e e' (List.of_mem_filter he) (List.of_mem_filter he') hsame

theorem nodup_successors (m : Module) (i : Nat) : ((ofModule m).successors i).Nodup := by
  apply nodup_ends
  rintro ⟨a, b⟩ ⟨a', b'⟩ ha ha' hsame
  simp_all

theorem nodup_predecessors (m : Module) (j : Nat) : ((ofModule m).predecessors j).Nodup := by
  apply nodup_ends
  rintro ⟨a, b⟩ ⟨a', b'⟩ ha ha' hsame
  simp_all

/-- Names that are picked from those of the module are listed as the module has them. -/
theorem namesOf_eq (hnames : m.definedNames.Nodup) {nodes : List Nat} {names : List String}
    (hsub : names.Sublist m.definedNames) (hnodes : nodes.Nodup)
    (hlt : ∀ i ∈ nodes, i < (ofModule m).size)
    (hmem : ∀ name, name ∈ names ↔ ∃ i ∈ nodes, m.definedNames[i]? = some name) :
    (ofModule m).namesOf nodes = names := by
  have hgraph : (ofModule m).names = m.definedNames := names_ofModule m
  have hsub' := namesOf_sublist hnodes hlt
  rw [hgraph] at hsub'
  refine (hnames.perm_iff_eq_of_sublist hsub' hsub).mp ?_
  refine (List.perm_ext_iff_of_nodup (hnames.sublist hsub') (hnames.sublist hsub)).mpr ?_
  intro name
  rw [mem_namesOf, hgraph, hmem]

/-- The nodes of a module are its names. -/
theorem exists_node (hnames : m.definedNames.Nodup) {name : String} (h : name ∈ m.definedNames) :
    ∃ i, (ofModule m).node? name = some i ∧ m.definedNames[i]? = some name := by
  obtain ⟨i, hi⟩ := List.mem_iff_getElem?.mp h
  exact ⟨i, (node?_eq_some_iff hnames).mpr hi, hi⟩

/-- A name that no class has is no node. -/
theorem node?_eq_none (hnames : m.definedNames.Nodup) {name : String} (h : name ∉ m.definedNames) :
    (ofModule m).node? name = none := by
  by_contra hsome
  obtain ⟨i, hi⟩ := Option.ne_none_iff_exists'.mp hsome
  exact h (List.mem_of_getElem? ((node?_eq_some_iff hnames).mp hi))

/-- Any list in the order of the module that has the dependencies and nothing else is what the graph
answers. -/
theorem dependenciesOf_eq (hnames : m.definedNames.Nodup) {a : String} (ha : a ∈ m.definedNames)
    {names : List String} (hsub : names.Sublist m.definedNames)
    (hmem : ∀ b, b ∈ names ↔ m.DependsOn a b) : (ofModule m).dependenciesOf a = names := by
  obtain ⟨i, hnode, hi⟩ := exists_node hnames ha
  rw [dependenciesOf, hnode]
  refine namesOf_eq hnames hsub (nodup_successors m i)
    (fun j hj => (lt_of_mem_successors hj).2) fun b => ?_
  rw [hmem]
  constructor
  · intro hab
    obtain ⟨j, hj⟩ := List.mem_iff_getElem?.mp hab.defined.2
    exact ⟨j, (dependsOn_iff hnames hi hj).mp hab, hj⟩
  · rintro ⟨j, hedge, hj⟩
    exact (dependsOn_iff hnames hi hj).mpr hedge

/-- Dependents are found against the direction of the edges, by any list in the order of the module
that has them and nothing else. -/
theorem dependentsOf_eq (hnames : m.definedNames.Nodup) {b : String} (hb : b ∈ m.definedNames)
    {names : List String} (hsub : names.Sublist m.definedNames)
    (hmem : ∀ a, a ∈ names ↔ m.DependsOn a b) : (ofModule m).dependentsOf b = names := by
  obtain ⟨j, hnode, hj⟩ := exists_node hnames hb
  have hedge (i : Nat) : i ∈ (ofModule m).predecessors j ↔ j ∈ (ofModule m).successors i := by
    rw [mem_predecessors, mem_successors]
  rw [dependentsOf, hnode]
  refine namesOf_eq hnames hsub (nodup_predecessors m j)
    (fun i hi => (lt_of_mem_successors ((hedge i).mp hi)).1) fun a => ?_
  rw [hmem]
  constructor
  · intro hab
    obtain ⟨i, hi⟩ := List.mem_iff_getElem?.mp hab.defined.1
    exact ⟨i, (hedge i).mpr ((dependsOn_iff hnames hi hj).mp hab), hi⟩
  · rintro ⟨i, hpred, hi⟩
    exact (dependsOn_iff hnames hi hj).mpr ((hedge i).mp hpred)

/-- A name that is no node has no neighbours. -/
theorem neighbours_of_not_defined (hnames : m.definedNames.Nodup) {name : String}
    (h : name ∉ m.definedNames) :
    (ofModule m).dependenciesOf name = [] ∧ (ofModule m).dependentsOf name = [] := by
  rw [dependenciesOf, dependentsOf, node?_eq_none hnames h]
  simp [namesOf]

end DependencyGraph

namespace Module

variable {m : Module}

/-- A class is known by its name. -/
theorem eq_of_qualifiedName (hnames : m.definedNames.Nodup) {a b : Class}
    (ha : a ∈ m.definedClasses) (hb : b ∈ m.definedClasses)
    (h : a.qualifiedName = b.qualifiedName) : a = b :=
  List.inj_on_of_nodup_map hnames ha hb h

/-- Between two classes of the module a dependency is a mention of the other one. -/
theorem dependsOn_iff_mentions (hnames : m.definedNames.Nodup) {a b : Class}
    (ha : a ∈ m.definedClasses) (hb : b ∈ m.definedClasses) :
    m.DependsOn a.qualifiedName b.qualifiedName ↔ b ≠ a ∧ a.Mentions b.qualifiedName := by
  rw [DependsOn, Class.mentions_iff]
  constructor
  · rintro ⟨hne, -, c, hc, hca, htype⟩
    obtain rfl := eq_of_qualifiedName hnames hc ha hca
    exact ⟨fun hba => hne (hba ▸ rfl), htype⟩
  · rintro ⟨hne, htype⟩
    refine ⟨fun hsame => hne (eq_of_qualifiedName hnames hb ha hsame.symm), ?_, a, ha, rfl, htype⟩
    exact List.mem_map_of_mem hb

theorem mem_mentionedBy_iff (hnames : m.definedNames.Nodup) {a : Class} (ha : a ∈ m.definedClasses)
    (name : String) : name ∈ (m.mentionedBy a).map Class.qualifiedName ↔
      m.DependsOn a.qualifiedName name := by
  simp only [mentionedBy, List.mem_map, List.mem_filter, decide_eq_true_eq]
  constructor
  · rintro ⟨b, ⟨hb, hmentions⟩, rfl⟩
    exact (dependsOn_iff_mentions hnames ha hb).mpr hmentions
  · intro h
    obtain ⟨b, hb, rfl⟩ := List.mem_map.mp h.defined.2
    exact ⟨b, ⟨hb, (dependsOn_iff_mentions hnames ha hb).mp h⟩, rfl⟩

theorem mem_mentioners_iff (hnames : m.definedNames.Nodup) {b : Class} (hb : b ∈ m.definedClasses)
    (name : String) : name ∈ (m.mentioners b).map Class.qualifiedName ↔
      m.DependsOn name b.qualifiedName := by
  simp only [mentioners, List.mem_map, List.mem_filter, decide_eq_true_eq]
  constructor
  · rintro ⟨a, ⟨ha, hne, hmentions⟩, rfl⟩
    exact (dependsOn_iff_mentions hnames ha hb).mpr ⟨hne.symm, hmentions⟩
  · intro h
    obtain ⟨a, ha, rfl⟩ := List.mem_map.mp h.defined.1
    obtain ⟨hne, hmentions⟩ := (dependsOn_iff_mentions hnames ha hb).mp h
    exact ⟨a, ⟨ha, hne.symm, hmentions⟩, rfl⟩

/-- The pairs are those of which the first depends on the second. -/
theorem mem_mentionPairs_iff (hnames : m.definedNames.Nodup) {a b : Class} :
    (a, b) ∈ m.mentionPairs ↔ a ∈ m.definedClasses ∧ b ∈ m.definedClasses ∧
      m.DependsOn a.qualifiedName b.qualifiedName := by
  rw [mentionPairs, List.mem_filter, List.mem_product, decide_eq_true_eq, and_assoc]
  refine and_congr_right fun ha => and_congr_right fun hb => ?_
  exact (dependsOn_iff_mentions hnames ha hb).symm

end Module

namespace DependencyGraph

variable {m : Module}

/-- The edges and the pairs of classes are the same, once both are read as names. -/
theorem edges_perm (hnames : m.definedNames.Nodup) :
    ((ofModule m).edges.map fun edge => (m.definedNames[edge.1]?, m.definedNames[edge.2]?)).Perm
      (m.mentionPairs.map fun pair => (some pair.1.qualifiedName, some pair.2.qualifiedName)) := by
  have hclasses : m.definedClasses.Nodup := .of_map _ hnames
  have hlt {i j : Nat} (h : (i, j) ∈ (ofModule m).edges) :
      i < m.definedNames.length ∧ j < m.definedNames.length := by
    have := lt_of_mem_successors (mem_successors.mpr h)
    rwa [size, names_ofModule] at this
  have hedges : ((ofModule m).edges.map fun edge =>
      (m.definedNames[edge.1]?, m.definedNames[edge.2]?)).Nodup := by
    refine (nodup_edges m).map_on ?_
    rintro ⟨i, j⟩ hij ⟨i', j'⟩ hij' hsame
    obtain ⟨hi, hj⟩ := Prod.mk.inj hsame
    rw [(List.getElem?_inj (hlt hij).1 hnames).mp hi, (List.getElem?_inj (hlt hij).2 hnames).mp hj]
  have hpairs : (m.mentionPairs.map fun pair =>
      (some pair.1.qualifiedName, some pair.2.qualifiedName)).Nodup := by
    refine ((hclasses.product hclasses).filter _).map_on ?_
    rintro ⟨a, b⟩ hab ⟨a', b'⟩ hab' hsame
    obtain ⟨ha, hb, -⟩ := (Module.mem_mentionPairs_iff hnames).mp hab
    obtain ⟨ha', hb', -⟩ := (Module.mem_mentionPairs_iff hnames).mp hab'
    obtain ⟨hsame, hsame'⟩ := Prod.mk.inj hsame
    rw [Module.eq_of_qualifiedName hnames ha ha' (Option.some.inj hsame),
      Module.eq_of_qualifiedName hnames hb hb' (Option.some.inj hsame')]
  -- neither list repeats itself, so it is enough to compare members
  refine (List.perm_ext_iff_of_nodup hedges hpairs).mpr ?_
  rintro ⟨x, y⟩
  simp only [List.mem_map, Prod.mk.injEq, Prod.exists]
  constructor
  · rintro ⟨i, j, hedge, rfl, rfl⟩
    have hi := List.getElem?_eq_getElem (hlt hedge).1
    have hj := List.getElem?_eq_getElem (hlt hedge).2
    have hdepends := (dependsOn_iff hnames hi hj).mpr (mem_successors.mpr hedge)
    obtain ⟨a, ha, hname⟩ := List.mem_map.mp hdepends.defined.1
    obtain ⟨b, hb, hname'⟩ := List.mem_map.mp hdepends.defined.2
    rw [← hname, ← hname'] at hdepends
    refine ⟨a, b, (Module.mem_mentionPairs_iff hnames).mpr ⟨ha, hb, hdepends⟩, ?_, ?_⟩
    · rw [hi, hname]
    · rw [hj, hname']
  · rintro ⟨a, b, hab, rfl, rfl⟩
    obtain ⟨ha, hb, hdepends⟩ := (Module.mem_mentionPairs_iff hnames).mp hab
    obtain ⟨i, hi⟩ := List.mem_iff_getElem?.mp hdepends.defined.1
    obtain ⟨j, hj⟩ := List.mem_iff_getElem?.mp hdepends.defined.2
    exact ⟨i, j, mem_successors.mp ((dependsOn_iff hnames hi hj).mp hdepends), hi, hj⟩

/-- There is one edge for each pair, since no edge is there twice. -/
theorem edgeCount_eq (hnames : m.definedNames.Nodup) :
    (ofModule m).edgeCount = m.mentionPairs.length := by
  have hlength := (edges_perm hnames).length_eq
  rwa [List.length_map, List.length_map] at hlength

end DependencyGraph

/-! ## Accepted modules -/

/-- A reference to a class that the module defines spells the name of that class. -/
theorem Classified.defined_of_mentions {settings : CheckSettings} {file : InterfaceFile}
    {table : SymbolTable} {m : Module} (h : Classified settings file table m) {c : Class}
    (hc : c ∈ m.allClasses) {name : String} (hname : c.Mentions name) : name ∈ m.definedNames := by
  obtain ⟨r, hr, horigin, rfl⟩ := Class.mentions_iff.mp hname
  obtain ⟨d, hd, position, type, htype, -, hlowers⟩ := h.exists_occurrence hc hr
  cases hlowers with
  | builtin => cases horigin
  | @reference reference wrapped hbuiltin href =>
    obtain ⟨hwell, hexternal, -⟩ := h.reference hd htype hbuiltin href
    have hdeclared : reference.external = false := by
      simpa [TypeRef.ofReference] using horigin
    have hdefined : reference.path ∈ file.definedPaths := by
      by_contra hdefined
      rw [hexternal.mpr hdefined] at hdeclared
      cases hdeclared
    obtain ⟨c', hc', hforward⟩ := h.lookup_of_defined hwell hdefined
    obtain ⟨hmem, htext⟩ := (Module.lookup_eq_some_iff h.names_nodup).mp hc'
    refine List.mem_map.mpr ⟨c', List.mem_filter.mpr ⟨hmem, by simpa using hforward⟩, ?_⟩
    exact htext

/-- The dependency graph of an accepted module is exactly the relation of being mentioned. -/
theorem Module.ofText_isMentionGraph {settings : Settings} {text : String} {m : Module}
    (h : Module.ofText settings text = .ok m) : m.IsMentionGraph (DependencyGraph.ofModule m) := by
  obtain ⟨file, table, hm⟩ := compiled_of_ofText h
  have hall : (m.allClasses.map Class.qualifiedName).Nodup := hm.names_nodup
  have hnames : m.definedNames.Nodup := hall.sublist (List.filter_sublist.map _)
  have hdependencies (a : Class) (ha : a ∈ m.definedClasses) :
      (DependencyGraph.ofModule m).dependenciesOf a.qualifiedName =
        (m.mentionedBy a).map Class.qualifiedName :=
    DependencyGraph.dependenciesOf_eq hnames (List.mem_map_of_mem ha)
      (List.filter_sublist.map _) (mem_mentionedBy_iff hnames ha)
  have hdependents (b : Class) (hb : b ∈ m.definedClasses) :
      (DependencyGraph.ofModule m).dependentsOf b.qualifiedName =
        (m.mentioners b).map Class.qualifiedName :=
    DependencyGraph.dependentsOf_eq hnames (List.mem_map_of_mem hb)
      (List.filter_sublist.map _) (mem_mentioners_iff hnames hb)
  constructor
  case dependencies => exact hdependencies
  case dependents => exact hdependents
  case nodup =>
    intro name
    by_cases hname : name ∈ m.definedNames
    · obtain ⟨c, hc, rfl⟩ := List.mem_map.mp hname
      rw [hdependencies c hc, hdependents c hc]
      exact ⟨hnames.sublist (List.filter_sublist.map _),
        hnames.sublist (List.filter_sublist.map _)⟩
    · obtain ⟨hnone, hnone'⟩ := DependencyGraph.neighbours_of_not_defined hnames hname
      rw [hnone, hnone']
      exact ⟨List.nodup_nil, List.nodup_nil⟩
  case complete =>
    intro a ha name hmentions hne
    -- this is where the module has to come from a text: what is mentioned is defined
    have hall := (List.mem_filter.mp ha).1
    rw [hdependencies a ha, mem_mentionedBy_iff hnames ha]
    exact ⟨hne.symm, hm.defined_of_mentions hall hmentions, a, ha, rfl,
      Class.mentions_iff.mp hmentions⟩
  case edgeCount => exact DependencyGraph.edgeCount_eq hnames
  case stubs =>
    intro c hc hforward
    refine DependencyGraph.neighbours_of_not_defined hnames fun hname => ?_
    -- the stub would share its name with a definition
    obtain ⟨c', hc', hsame⟩ := List.mem_map.mp hname
    obtain ⟨hmem, hdefined⟩ := List.mem_filter.mp hc'
    obtain rfl := List.inj_on_of_nodup_map hall hmem hc hsame
    simp [hforward] at hdefined
  case unknown =>
    intro name hnone
    refine DependencyGraph.neighbours_of_not_defined hnames fun hname => ?_
    obtain ⟨c, hc, hsame⟩ := List.mem_map.mp hname
    have hnot := List.find?_eq_none.mp hnone c (List.mem_filter.mp hc).1
    exact hnot (by simpa using hsame)

/-- Two classes, `Graph` and `Node`, that mention each other. `Stub` is mentioned and is somebody
else's. -/
def graphText : String :=
  "class Stub;\nclass Graph \x7b\nNode root();\n\x7d;\n" ++
  "class Node \x7b\nGraph owner();\nStub stub();\n\x7d;\n"

def graphModule : Module :=
  let method (name type : String) (origin : ClassOrigin) : Member :=
    .method ⟨name, [], ⟨.classValue, .byValueCopy, [], type, some origin, false⟩, false⟩
  ⟨[], [.stub (.bare "Stub"),
    ⟨"Graph", [], none, "Graph.h", false, [method "root" "Node" .declared]⟩,
    ⟨"Node", [], none, "Node.h", false,
      [method "owner" "Graph" .declared, method "stub" "Stub" .external]⟩]⟩

theorem Module.graphModule_isMentionGraph :
    Module.ofText default graphText = .ok graphModule ∧
      graphModule.IsMentionGraph (DependencyGraph.ofModule graphModule) ∧
      (DependencyGraph.ofModule graphModule).edges = [(1, 0), (0, 1)] := by
  have htext : Module.ofText default graphText = .ok graphModule :=
    Except.eq_ok_of_toOption (by decide +kernel)
  exact ⟨htext, ofText_isMentionGraph htext, by decide⟩

end BindingIdl
