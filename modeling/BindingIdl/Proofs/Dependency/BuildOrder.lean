import BindingIdl.Proofs.Dependency.Components
import BindingIdl.Proofs.Dependency.Mentions
import Mathlib.Data.List.Sort

/-!
# Build orders

`Module.IsBuildOrder` is what a generator wants of an order: groups of mutually dependent classes,
each behind those it depends on, with every class in one place. It speaks of names and of
`Module.DependsOn` only. `generationOrder_isBuildOrder` is that a generation order is one, as long
as no two classes of the module share a name.
-/

namespace BindingIdl

/-- The classes of a module in groups that can be generated one after the other. -/
structure Module.IsBuildOrder (m : Module) (order : List (List String)) : Prop where
  /-- Every class is in one group, once. -/
  partition : order.flatten.Perm m.definedNames
  nonempty : ∀ group ∈ order, group ≠ []
  /-- Classes share a group when they depend on each other, be it through others. -/
  mutual_iff : ∀ a ∈ m.definedNames, ∀ b ∈ m.definedNames,
    (∃ group ∈ order, a ∈ group ∧ b ∈ group) ↔
      Relation.ReflTransGen m.DependsOn a b ∧ Relation.ReflTransGen m.DependsOn b a
  /-- What a class depends on is in its group or in an earlier one. -/
  behind : ∀ {i j : Nat} {groupA groupB : List String}, order[i]? = some groupA →
    order[j]? = some groupB → ∀ a ∈ groupA, ∀ b ∈ groupB, m.DependsOn a b → i ≠ j → j < i
  /-- In a group, classes keep the order of the module. -/
  sorted : ∀ group ∈ order, group.Sublist m.definedNames

namespace DependencyGraph

/-! ## Names of nodes -/

section

variable {g : DependencyGraph} {nodes : List Nat}

/-- Nodes without a name are passed over. -/
theorem mem_namesOf {name : String} :
    name ∈ g.namesOf nodes ↔ ∃ i ∈ nodes, g.names[i]? = some name := by
  simp [namesOf, List.mem_filterMap]

/-- To put nodes in order loses none of their names. -/
theorem namesOf_perm : (g.namesOf nodes).Perm (nodes.filterMap (g.names[·]?)) :=
  (List.mergeSort_perm nodes _).filterMap _

theorem filterMap_range_getElem? (names : List String) :
    (List.range names.length).filterMap (names[·]?) = names := by
  induction names with
  | nil => rfl
  | cons name names ih =>
    rw [List.length_cons, List.range_succ_eq_map, List.filterMap_cons, List.filterMap_map]
    exact congrArg _ ih

/-- The names of different nodes come in node order. -/
theorem namesOf_sublist (hnodup : nodes.Nodup) (hnodes : ∀ i ∈ nodes, i < g.size) :
    (g.namesOf nodes).Sublist g.names := by
  have hperm := List.mergeSort_perm nodes fun a b => decide (a ≤ b)
  have hsubperm : nodes.mergeSort.Subperm (List.range g.size) :=
    (hperm.nodup_iff.mpr hnodup).subperm fun i hi =>
      List.mem_range.mpr (hnodes i (hperm.subset hi))
  have hsub : nodes.mergeSort.Sublist (List.range g.size) :=
    List.sublist_of_subperm_of_sortedLE hsubperm List.sortedLE_mergeSort
      (List.sortedLT_range _).sortedLE
  have hnames := hsub.filterMap (g.names[·]?)
  rwa [size, filterMap_range_getElem?] at hnames

/-- All names, where the nodes are taken group by group. -/
theorem flatten_namesOf_perm {groups : List (List Nat)}
    (h : groups.flatten.Perm (List.range g.size)) :
    (groups.map g.namesOf).flatten.Perm g.names := by
  have hnames : (groups.map g.namesOf).flatten.Perm (groups.flatten.filterMap (g.names[·]?)) := by
    clear h
    induction groups with
    | nil => exact .nil
    | cons nodes groups ih =>
      rw [List.map_cons, List.flatten_cons, List.flatten_cons, List.filterMap_append]
      exact namesOf_perm.append ih
  refine hnames.trans ((h.filterMap _).trans ?_)
  rw [size, filterMap_range_getElem?]

end

/-! ## Ways between names -/

section

variable {m : Module} {a b : String} {i j : Nat}

/-- Dependencies are edges, so a way along the ones is a way along the others. -/
theorem leads_of_dependsOn (hnames : m.definedNames.Nodup) (hi : m.definedNames[i]? = some a)
    (hj : m.definedNames[j]? = some b) (h : Relation.ReflTransGen m.DependsOn a b) :
    Leads (ofModule m).successors i j := by
  induction h generalizing j with
  | refl => rw [node_unique hnames hi hj]
  | tail _ hstep ih =>
    obtain ⟨k, hk⟩ := List.mem_iff_getElem?.mp hstep.defined.1
    exact (ih hk).tail ((dependsOn_iff hnames hk hj).mp hstep)

/-- Where names are distinct, a node stands for one class only. -/
theorem dependsOn_of_leads (hnames : m.definedNames.Nodup) (hi : m.definedNames[i]? = some a)
    (hj : m.definedNames[j]? = some b) (h : Leads (ofModule m).successors i j) :
    Relation.ReflTransGen m.DependsOn a b := by
  induction h generalizing b with
  | refl => rw [Option.some.inj (hi.symm.trans hj)]
  | @tail k l _ hedge ih =>
    have hk : k < m.definedNames.length := by
      have hlt := (lt_of_mem_successors hedge).1
      rwa [size, names_ofModule] at hlt
    have hname := List.getElem?_eq_getElem hk
    exact (ih hname).tail ((dependsOn_iff hnames hname hj).mpr hedge)

variable {groups : List (List Nat)}

/-- Two classes are in one group if and only if each leads to the other. -/
theorem mutual_iff_same_group (hnames : m.definedNames.Nodup)
    (hsettled : Settled (ofModule m).successors groups)
    (hperm : groups.flatten.Perm (List.range (ofModule m).size))
    (hi : m.definedNames[i]? = some a) (hj : m.definedNames[j]? = some b) :
    (∃ nodes ∈ groups, i ∈ nodes ∧ j ∈ nodes) ↔
      Relation.ReflTransGen m.DependsOn a b ∧ Relation.ReflTransGen m.DependsOn b a := by
  have hnode {k : Nat} {name : String} (hk : m.definedNames[k]? = some name) :
      k ∈ groups.flatten := by
    refine hperm.symm.subset (List.mem_range.mpr ?_)
    rw [size, names_ofModule]
    exact (List.getElem?_eq_some_iff.mp hk).1
  constructor
  · rintro ⟨nodes, hnodes, hi', hj'⟩
    exact ⟨dependsOn_of_leads hnames hi hj (hsettled.connected hnodes hi' hj'),
      dependsOn_of_leads hnames hj hi (hsettled.connected hnodes hj' hi')⟩
  · rintro ⟨hab, hba⟩
    exact hsettled.same_group (hperm.nodup_iff.mpr List.nodup_range) (hnode hi) (hnode hj)
      (leads_of_dependsOn hnames hi hj hab) (leads_of_dependsOn hnames hj hi hba)

end

/-- The generation order of a module in which no two classes share a name is a build order: the
groups are the strongly connected components of the dependencies, each behind those it leads to. -/
theorem generationOrder_isBuildOrder (m : Module)
    (hnames : (m.definedClasses.map Class.qualifiedName).Nodup) :
    m.IsBuildOrder (ofModule m).generationOrder := by
  have hnames : m.definedNames.Nodup := hnames
  have hgraph : (ofModule m).names = m.definedNames := names_ofModule m
  obtain ⟨groups, hcomponents, hsettled, hperm⟩ :=
    components_settled (g := ofModule m) fun u v hv => (lt_of_mem_successors hv).2
  have hnodup : groups.flatten.Nodup := hperm.nodup_iff.mpr List.nodup_range
  have hlt {nodes : List Nat} (hnodes : nodes ∈ groups) : ∀ i ∈ nodes, i < (ofModule m).size :=
    fun i hi => List.mem_range.mp (hperm.subset (List.mem_flatten_of_mem hnodes hi))
  have hmem {nodes : List Nat} {name : String} : name ∈ (ofModule m).namesOf nodes ↔
      ∃ i ∈ nodes, m.definedNames[i]? = some name := by
    rw [mem_namesOf, hgraph]
  have hgroup {group : List String} : group ∈ groups.reverse.map (ofModule m).namesOf ↔
      ∃ nodes ∈ groups, (ofModule m).namesOf nodes = group := by
    simp only [List.mem_map, List.mem_reverse]
  -- from here on names and nodes are exchanged by `hmem`, groups and components by `hgroup`
  rw [generationOrder, hcomponents]
  constructor
  case partition =>
    rw [← hgraph]
    exact flatten_namesOf_perm ((List.reverse_perm groups).flatten.trans hperm)
  case nonempty =>
    intro group hin
    obtain ⟨nodes, hnodes, rfl⟩ := hgroup.mp hin
    obtain ⟨i, hi⟩ := List.exists_mem_of_ne_nil nodes (hsettled.ne_nil nodes hnodes)
    have hname := List.getElem?_eq_getElem (l := (ofModule m).names) (hlt hnodes i hi)
    exact List.ne_nil_of_mem (mem_namesOf.mpr ⟨i, hi, hname⟩)
  case mutual_iff =>
    intro a ha b hb
    obtain ⟨i, hi⟩ := List.mem_iff_getElem?.mp ha
    obtain ⟨j, hj⟩ := List.mem_iff_getElem?.mp hb
    rw [← mutual_iff_same_group hnames hsettled hperm hi hj]
    constructor
    · rintro ⟨group, hin, hag, hbg⟩
      obtain ⟨nodes, hnodes, rfl⟩ := hgroup.mp hin
      obtain ⟨k, hk, hka⟩ := hmem.mp hag
      obtain ⟨l, hl, hlb⟩ := hmem.mp hbg
      rw [node_unique hnames hi hka, node_unique hnames hj hlb]
      exact ⟨nodes, hnodes, hk, hl⟩
    · rintro ⟨nodes, hnodes, hin, hjn⟩
      exact ⟨_, hgroup.mpr ⟨nodes, hnodes, rfl⟩, hmem.mpr ⟨i, hin, hi⟩, hmem.mpr ⟨j, hjn, hj⟩⟩
  case behind =>
    intro i j groupA groupB hA hB a ha b hb hab hne
    rw [List.getElem?_map, Option.map_eq_some_iff] at hA hB
    obtain ⟨nodesA, hA, rfl⟩ := hA
    obtain ⟨nodesB, hB, rfl⟩ := hB
    obtain ⟨k, hk, hka⟩ := hmem.mp ha
    obtain ⟨l, hl, hlb⟩ := hmem.mp hb
    have hedge := (dependsOn_iff hnames hka hlb).mp hab
    exact hsettled.behind hnodup hA hB hk hl hedge hne
  case sorted =>
    intro group hin
    obtain ⟨nodes, hnodes, rfl⟩ := hgroup.mp hin
    rw [← hgraph]
    exact namesOf_sublist ((List.nodup_flatten.mp hnodup).1 nodes hnodes) (hlt hnodes)

/-! Two classes that mention each other, and one that mentions one of them. -/

/-- A class with a method for each class that it mentions. -/
def mentioning (name : String) (others : List String) : Class :=
  let method (other : String) : Method :=
    ⟨"to" ++ other, [], ⟨.classValue, .byValueCopy, [], other, some .declared, false⟩, true⟩
  ⟨name, [], none, name ++ ".h", false, others.map (.method <| method ·)⟩

/-- The classes `Node` and `Edge` mention each other, and `Graph` mentions `Node`. -/
def sampleModule : Module :=
  ⟨[], [mentioning "Graph" ["Node"], mentioning "Node" ["Edge"], mentioning "Edge" ["Node"]]⟩

theorem sampleModule_generationOrder :
    (sampleModule.definedClasses.map Class.qualifiedName).Nodup ∧
      (ofModule sampleModule).generationOrder = [["Node", "Edge"], ["Graph"]] ∧
      sampleModule.IsBuildOrder [["Node", "Edge"], ["Graph"]] := by
  have hnames : (sampleModule.definedClasses.map Class.qualifiedName).Nodup := by decide
  have hcomponents : (ofModule sampleModule).components = [[2, 1], [0]] := by decide
  have hnodes : (ofModule sampleModule).names = ["Graph", "Node", "Edge"] := by decide
  have horder : (ofModule sampleModule).generationOrder = [["Node", "Edge"], ["Graph"]] := by
    simp [generationOrder, hcomponents, namesOf, hnodes, List.mergeSort,
      List.MergeSort.Internal.splitInTwo]
  exact ⟨hnames, horder, horder ▸ generationOrder_isBuildOrder sampleModule hnames⟩

end DependencyGraph

end BindingIdl
