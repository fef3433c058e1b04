import BindingIdl.Dependency
import Mathlib.Data.List.Nodup

/-!
# The edges of a dependency graph

A graph is built edge by edge while the signatures of the classes are gone through.
`mem_edges_ofModule` says which edges this leaves: those between two different nodes of which the
first has a class that mentions the second. As a name stands for the last node that has it, nodes
and names are the same thing only where no two classes share a name; then `dependsOn_iff` reads the
edges as the relation `Module.DependsOn` between names.
-/

namespace BindingIdl

/-! ## Names and nodes -/

theorem getElem?_of_lastIndexOf? {name : String} {names : List String} {i : Nat}
    (h : lastIndexOf? name names = some i) : names[i]? = some name := by
  induction names generalizing i with
  | nil => cases h
  | cons first rest ih =>
    rw [lastIndexOf?] at h
    cases hrest : lastIndexOf? name rest with
    | some j =>
      rw [hrest] at h
      obtain rfl : j + 1 = i := Option.some.inj h
      exact ih hrest
    | none =>
      rw [hrest] at h
      by_cases hfirst : first = name
      · rw [if_pos hfirst] at h
        obtain rfl : 0 = i := Option.some.inj h
        rw [hfirst, List.getElem?_cons_zero]
      · rw [if_neg hfirst] at h
        cases h

theorem exists_lastIndexOf? {name : String} {names : List String} (h : name ∈ names) :
    ∃ i, lastIndexOf? name names = some i := by
  induction names with
  | nil => exact absurd h List.not_mem_nil
  | cons first rest ih =>
    rw [lastIndexOf?]
    cases hrest : lastIndexOf? name rest with
    | some j => exact ⟨j + 1, rfl⟩
    | none =>
      obtain rfl | h := List.mem_cons.mp h
      · exact ⟨0, if_pos rfl⟩
      · obtain ⟨i, hi⟩ := ih h
        rw [hrest] at hi
        cases hi

/-- Where no name is there twice, a name means the node that has it. -/
theorem lastIndexOf?_eq_some_iff {name : String} {names : List String} (hnames : names.Nodup)
    {i : Nat} : lastIndexOf? name names = some i ↔ names[i]? = some name := by
  refine ⟨getElem?_of_lastIndexOf?, fun h => ?_⟩
  obtain ⟨j, hj⟩ := exists_lastIndexOf? (List.mem_of_getElem? h)
  obtain ⟨hlt, -⟩ := List.getElem?_eq_some_iff.mp h
  rw [hj, (List.getElem?_inj hlt hnames).mp (h.trans (getElem?_of_lastIndexOf? hj).symm)]

namespace DependencyGraph

variable {g : DependencyGraph} {source target i j : Nat}

/-- The successors of a node are the ends of its edges. -/
theorem mem_successors : j ∈ g.successors i ↔ (i, j) ∈ g.edges := by
  simp [successors]

/-! ## One edge more -/

theorem names_addEdge : (g.addEdge source target).names = g.names := by
  unfold addEdge
  split <;> rfl

/-- A node has no edge to itself, and an edge that is there is not added again. -/
theorem mem_edges_addEdge : (i, j) ∈ (g.addEdge source target).edges ↔
    (i, j) ∈ g.edges ∨ (i = source ∧ j = target ∧ source ≠ target) := by
  unfold addEdge
  split
  · rename_i hskip
    rw [Bool.or_eq_true, decide_eq_true_eq, decide_eq_true_eq] at hskip
    constructor
    · exact .inl
    · rintro (hmem | ⟨rfl, rfl, hne⟩)
      · exact hmem
      · exact hskip.resolve_left hne
  · rename_i hnew
    rw [Bool.or_eq_true, decide_eq_true_eq, decide_eq_true_eq, not_or] at hnew
    rw [List.mem_cons, Prod.mk.injEq, or_comm]
    simp [hnew.1]

/-- The node that a type in a signature denotes, if its class is one. -/
def mentioned? (names : List String) (type : TypeRef) : Option Nat :=
  if type.origin = some .declared then lastIndexOf? type.qualifiedName names else none

/-- A mention of what is no class of the graph adds nothing. -/
theorem addMention_eq (type : TypeRef) : g.addMention source type =
    match mentioned? g.names type with
    | some target => g.addEdge source target
    | none => g := by
  rw [addMention, mentioned?]
  split <;> rfl

theorem names_addMention (type : TypeRef) : (g.addMention source type).names = g.names := by
  rw [addMention_eq]
  split
  · exact names_addEdge
  · rfl

/-- One mention adds one edge at most, from the class to the one it mentions. -/
theorem mem_edges_addMention (type : TypeRef) : (i, j) ∈ (g.addMention source type).edges ↔
    (i, j) ∈ g.edges ∨ (i = source ∧ i ≠ j ∧ mentioned? g.names type = some j) := by
  rw [addMention_eq]
  cases hnode : mentioned? g.names type with
  | none => simp
  | some target =>
    rw [mem_edges_addEdge, Option.some.injEq]
    refine or_congr_right ⟨?_, ?_⟩
    · rintro ⟨rfl, rfl, hne⟩
      exact ⟨rfl, hne, rfl⟩
    · rintro ⟨rfl, hne, rfl⟩
      exact ⟨rfl, rfl, hne⟩

/-! ## All edges -/

/-- All mentions of one class, by induction on its types. -/
theorem foldl_addMention (source i j : Nat) (types : List TypeRef) (g : DependencyGraph) :
    (types.foldl (addMention source) g).names = g.names ∧
    ((i, j) ∈ (types.foldl (addMention source) g).edges ↔ (i, j) ∈ g.edges ∨
      (i = source ∧ i ≠ j ∧ ∃ type ∈ types, mentioned? g.names type = some j)) := by
  induction types generalizing g with
  | nil => simp
  | cons type types ih =>
    obtain ⟨hnames, hedges⟩ := ih (g.addMention source type)
    rw [names_addMention] at hnames hedges
    refine ⟨hnames, ?_⟩
    rw [List.foldl_cons, hedges, mem_edges_addMention, or_assoc]
    refine or_congr_right ?_
    simp only [List.mem_cons, exists_eq_or_imp, and_or_left]

/-- A class adds an edge for each other class of the graph in its signatures. -/
theorem addClass_cases (c : Class) : (g.addClass c).names = g.names ∧
    ((i, j) ∈ (g.addClass c).edges ↔ (i, j) ∈ g.edges ∨
      (lastIndexOf? c.qualifiedName g.names = some i ∧ i ≠ j ∧
        ∃ type ∈ c.types, mentioned? g.names type = some j)) := by
  rw [addClass, node?]
  cases lastIndexOf? c.qualifiedName g.names with
  | none => simp
  | some source =>
    obtain ⟨hnames, hedges⟩ := foldl_addMention source i j c.types g
    refine ⟨hnames, ?_⟩
    rw [hedges, Option.some.injEq, @eq_comm _ i]

/-- All classes, by induction on their list. The names stay those that the graph was started
with. -/
theorem foldl_addClass (classes : List Class) (g : DependencyGraph) :
    (classes.foldl addClass g).names = g.names ∧
    ((i, j) ∈ (classes.foldl addClass g).edges ↔ (i, j) ∈ g.edges ∨
      ∃ c ∈ classes, lastIndexOf? c.qualifiedName g.names = some i ∧ i ≠ j ∧
        ∃ type ∈ c.types, mentioned? g.names type = some j) := by
  induction classes generalizing g with
  | nil => simp
  | cons c classes ih =>
    obtain ⟨hnames, hedges⟩ := ih (g.addClass c)
    obtain ⟨hnames', hedges'⟩ := addClass_cases (g := g) (i := i) (j := j) c
    rw [hnames'] at hnames hedges
    refine ⟨hnames, ?_⟩
    rw [List.foldl_cons, hedges, hedges', or_assoc]
    simp only [List.mem_cons, exists_eq_or_imp]

theorem names_ofModule (m : Module) :
    (ofModule m).names = m.definedClasses.map Class.qualifiedName :=
  (foldl_addClass (i := 0) (j := 0) m.definedClasses _).1

/-- There is an edge between two different nodes when the class of the first mentions that of the
second. -/
theorem mem_edges_ofModule (m : Module) : (i, j) ∈ (ofModule m).edges ↔
    ∃ c ∈ m.definedClasses, (ofModule m).node? c.qualifiedName = some i ∧ i ≠ j ∧
      ∃ type ∈ c.types, type.origin = some .declared ∧
        (ofModule m).node? type.qualifiedName = some j := by
  simp only [node?, names_ofModule]
  rw [ofModule, (foldl_addClass m.definedClasses _).2]
  simp [mentioned?]

end DependencyGraph

/-! ## Between names -/

/-- The names of the classes that are nodes, in node order. -/
def Module.definedNames (m : Module) : List String := m.definedClasses.map Class.qualifiedName

/-- A class that the module defines mentions another one in its signatures. -/
def Module.DependsOn (m : Module) (a b : String) : Prop :=
  a ≠ b ∧ b ∈ m.definedNames ∧ ∃ c ∈ m.definedClasses, c.qualifiedName = a ∧
    ∃ type ∈ c.types, type.origin = some .declared ∧ type.qualifiedName = b

/-- Only classes that the module defines depend on each other. -/
theorem Module.DependsOn.defined {m : Module} {a b : String} (h : m.DependsOn a b) :
    a ∈ m.definedNames ∧ b ∈ m.definedNames := by
  obtain ⟨-, hb, c, hc, rfl, -⟩ := h
  exact ⟨List.mem_map_of_mem hc, hb⟩

/-- Where no name is there twice, it belongs to one node. -/
theorem node_unique {names : List String} {name : String} {i j : Nat} (hnames : names.Nodup)
    (hi : names[i]? = some name) (hj : names[j]? = some name) : i = j :=
  (List.getElem?_inj (List.getElem?_eq_some_iff.mp hi).1 hnames).mp (hi.trans hj.symm)

namespace DependencyGraph

/-- Where no two classes share a name, the nodes of a module are its names. -/
theorem node?_eq_some_iff {m : Module} (hnames : m.definedNames.Nodup) {name : String} {i : Nat} :
    (ofModule m).node? name = some i ↔ m.definedNames[i]? = some name := by
  rw [node?, names_ofModule]
  exact lastIndexOf?_eq_some_iff hnames

/-- The dependencies of a module are the edges of its graph. -/
theorem dependsOn_iff {m : Module} {a b : String} {i j : Nat} (hnames : m.definedNames.Nodup)
    (hi : m.definedNames[i]? = some a) (hj : m.definedNames[j]? = some b) :
    m.DependsOn a b ↔ j ∈ (ofModule m).successors i := by
  simp only [mem_successors, mem_edges_ofModule, node?_eq_some_iff hnames]
  constructor
  · rintro ⟨hne, -, c, hc, rfl, type, htype, horigin, rfl⟩
    refine ⟨c, hc, hi, ?_, type, htype, horigin, hj⟩
    rintro rfl
    exact hne (Option.some.inj (hi.symm.trans hj))
  · rintro ⟨c, hc, hi', hne, type, htype, horigin, hj'⟩
    obtain rfl := Option.some.inj (hi.symm.trans hi')
    obtain rfl := Option.some.inj (hj.symm.trans hj')
    refine ⟨fun hsame => hne ?_, List.mem_of_getElem? hj, c, hc, rfl, type, htype, horigin, rfl⟩
    exact node_unique hnames hi (hsame ▸ hj)

/-- Edges lead from nodes to nodes. -/
theorem lt_of_mem_successors {m : Module} {i j : Nat} (h : j ∈ (ofModule m).successors i) :
    i < (ofModule m).size ∧ j < (ofModule m).size := by
  obtain ⟨c, -, hi, -, type, -, -, hj⟩ := (mem_edges_ofModule m).mp (mem_successors.mp h)
  exact ⟨(List.getElem?_eq_some_iff.mp (getElem?_of_lastIndexOf? hi)).1,
    (List.getElem?_eq_some_iff.mp (getElem?_of_lastIndexOf? hj)).1⟩

end DependencyGraph

end BindingIdl
