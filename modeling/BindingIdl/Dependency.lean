import BindingIdl.Module

/-!
# Which class mentions which

The nodes of a dependency graph are the classes that a module defines, in the order of
`Module.allClasses`; there is an edge from a class to every other one that a type in its signatures
denotes. Classes that are only forward declared are somebody else's and are no nodes.

Nodes are numbers, and a name means the last node that has it. Edges are kept with the latest one
found in front, which is the order in which a search follows them.
-/

namespace BindingIdl

structure DependencyGraph where
  /-- The qualified name of each node. -/
  names : List String
  /-- Without repetitions, the latest found in front. -/
  edges : List (Nat × Nat)
deriving DecidableEq, Repr, Inhabited

/-- The last place at which a name stands. -/
def lastIndexOf? (name : String) : List String → Option Nat
  | [] => none
  | first :: rest =>
    match lastIndexOf? name rest with
    | some i => some (i + 1)
    | none => if first = name then some 0 else none

namespace DependencyGraph

/-- The node a name means. -/
def node? (g : DependencyGraph) (name : String) : Option Nat := lastIndexOf? name g.names

/-- An edge between two different nodes; one that is there already is not added again. -/
def addEdge (g : DependencyGraph) (source target : Nat) : DependencyGraph :=
  if source = target || (source, target) ∈ g.edges then g
  else { g with edges := (source, target) :: g.edges }

/-- The edge that a type in the signatures of `source` gives rise to, if its class is a node. -/
def addMention (source : Nat) (g : DependencyGraph) (type : TypeRef) : DependencyGraph :=
  if type.origin = some .declared then
    match g.node? type.qualifiedName with
    | some target => g.addEdge source target
    | none => g
  else g

def addClass (g : DependencyGraph) (c : Class) : DependencyGraph :=
  match g.node? c.qualifiedName with
  | some source => c.types.foldl (addMention source) g
  | none => g

/-- The graph of a module. -/
def ofModule (m : Module) : DependencyGraph :=
  m.definedClasses.foldl addClass ⟨m.definedClasses.map Class.qualifiedName, []⟩

/-- Where the edges of a node lead, the latest found first. -/
def successors (g : DependencyGraph) (node : Nat) : List Nat :=
  (g.edges.filter (·.1 = node)).map (·.2)

/-- Where the edges into a node come from. -/
def predecessors (g : DependencyGraph) (node : Nat) : List Nat :=
  (g.edges.filter (·.2 = node)).map (·.1)

/-- The names of some nodes, in node order. -/
def namesOf (g : DependencyGraph) (nodes : List Nat) : List String :=
  nodes.mergeSort.filterMap (g.names[·]?)

/-- The classes that a class mentions. -/
def dependenciesOf (g : DependencyGraph) (name : String) : List String :=
  g.namesOf ((g.node? name).elim [] g.successors)

/-- The classes that mention a class. -/
def dependentsOf (g : DependencyGraph) (name : String) : List String :=
  g.namesOf ((g.node? name).elim [] g.predecessors)

def size (g : DependencyGraph) : Nat := g.names.length

def isEmpty (g : DependencyGraph) : Bool := g.names.isEmpty

def edgeCount (g : DependencyGraph) : Nat := g.edges.length

end DependencyGraph

end BindingIdl
