import BindingIdl.Dependency

/-!
# Generation order

Bindings can be generated class by class when a class comes behind those it depends on. Classes that
depend on each other share a group, so `DependencyGraph.generationOrder` lists groups.

The groups are the strongly connected components of the graph, as Tarjan's search finds them. A
depth-first search keeps the nodes it enters on a stack until their component is known. What is
followed from a node says how low on that stack the search came back to. Where this is not below the
node, nothing above the node leads out of its component any more: the node and all above it are that
component, which is given out. So a component comes behind all it leads to.
-/

namespace BindingIdl

/-- How far a depth-first search has come. -/
structure Search where
  /-- The nodes that have been entered and are in no component yet, the latest in front. -/
  stack : List Nat
  /-- The components that have been given out, the latest in front. -/
  groups : List (List Nat)
deriving DecidableEq, Repr, Inhabited

namespace Search

def start : Search := ⟨[], []⟩

/-- The nodes that have been entered. -/
def entered (s : Search) : List Nat := s.stack ++ s.groups.flatten

/-- How many nodes lie below a node on the stack, and below one that would be put on it next. -/
def place (s : Search) (node : Nat) : Nat := s.stack.reverse.idxOf node

def push (s : Search) (node : Nat) : Search := { s with stack := node :: s.stack }

/-- Give out all that lies above the lowest `height` nodes of the stack as one component. -/
def close (s : Search) (height : Nat) : Search where
  stack := s.stack.drop (s.stack.length - height)
  groups := s.stack.take (s.stack.length - height) :: s.groups

/-- Visit one node more, and keep the lowest place that visits come back to. -/
def proceed (visit : Search → Nat → Search × Nat) (sofar : Search × Nat) (node : Nat) :
    Search × Nat :=
  let (s, low) := visit sofar.1 node
  (s, min sofar.2 low)

/-- Enter a node, unless it has been entered before, and follow `next` from it. The second part of
the answer is the lowest place on the stack that this comes back to. No more than `depth` nodes are
entered one inside the other. -/
def visit (next : Nat → List Nat) : (depth : Nat) → Search → Nat → Search × Nat
  | 0, s, node => (s, s.place node)
  | depth + 1, s, node =>
    if node ∈ s.entered then (s, s.place node)
    else
      let height := s.stack.length
      let (inner, low) := (next node).foldl (proceed (visit next depth)) (s.push node, height)
      -- lower down than `node` there is more of its component
      if low < height then (inner, low) else (inner.close height, height)

end Search

namespace DependencyGraph

/-- The strongly connected components, each behind those it leads to. -/
def components (g : DependencyGraph) : List (List Nat) :=
  let visit := Search.visit g.successors g.size
  ((List.range g.size).foldl (Search.proceed visit) (Search.start, 0)).1.groups.reverse

/-- The names of the classes in groups that can be generated one after the other. -/
def generationOrder (g : DependencyGraph) : List (List String) := g.components.map g.namesOf

end DependencyGraph

end BindingIdl
