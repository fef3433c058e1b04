/-!
# Qualified names

A class is named by the namespaces around it, outermost first, and its own name. Two paths denote
the same class when their texts agree, so `QualifiedName.text` is the key under which everything
else looks classes up.
-/

namespace BindingIdl

/-- A name with the namespaces in front of it, such as `geo::Point`. -/
structure QualifiedName where
  namespaces : List String
  name : String
deriving DecidableEq, Repr, Inhabited

namespace QualifiedName

/-- A name with no namespace in front of it. -/
def bare (name : String) : QualifiedName := ⟨[], name⟩

def isQualified (q : QualifiedName) : Bool := !q.namespaces.isEmpty

/-- All segments from the root, the name last. -/
def segments (q : QualifiedName) : List String := q.namespaces ++ [q.name]

/-- The path as written: segments joined by `::`. -/
def text (q : QualifiedName) : String :=
  q.namespaces.foldr (fun space rest => space ++ "::" ++ rest) q.name

@[simp] theorem text_bare (name : String) : (bare name).text = name := rfl

theorem text_cons (space : String) (spaces : List String) (name : String) :
    text ⟨space :: spaces, name⟩ = space ++ "::" ++ text ⟨spaces, name⟩ := rfl

/-- The name read off a list of segments, of which the last is the class itself. -/
def ofSegments? (segments : List String) : Option QualifiedName :=
  segments.getLast?.map fun name => ⟨segments.dropLast, name⟩

end QualifiedName

end BindingIdl
