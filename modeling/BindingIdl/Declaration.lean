import BindingIdl.Name
import BindingIdl.Span
import BindingIdl.Text.Blank

/-!
# Declarations as written

The tree of one interface file, before any name in it has been given a meaning: namespaces,
classes with their constructors and methods, forward declarations, and the types in their
signatures. Every node has an id under which later steps attach what they find out about it, and
the span it was read from.

`Item.induction` is the way to reason about a list of items: an anonymous or named namespace
brings its own list, and the hypothesis holds of that list too.
-/

namespace BindingIdl

/-- The number of a node, by which what is found out about it is attached. Numbers have no bound
here: a counter of 32 bits hands out the same ones as long as it hands out fewer than `2 ^ 32`. -/
abbrev NodeId := Nat

/-- An override for the header of what follows it: `#include <path>`. -/
structure IncludeOverride where
  path : String
  span : Span
deriving DecidableEq, Repr, Inhabited

/-- What stands between the first `<` of a line and the `>` that ends it; nothing if the line does
not end with one. Blanks at its ends do not count. -/
def IncludeOverride.pathOf (line : String) : String :=
  let behind := (line.toList.dropWhile (· ≠ '<')).drop 1
  if behind.getLast? = some '>' then String.ofList (Text.trim behind.dropLast) else ""

/-! ## Types -/

/-- Names that stand for a type without a declaration. -/
inductive Builtin where
  | string
  | bool
  | size
  | int
  | double
  | char
  | void
  | matrix
  | vector
deriving DecidableEq, Repr, Inhabited

namespace Builtin

def ofName? : String → Option Builtin
  | "string" => some string
  | "bool" => some bool
  | "size_t" => some size
  | "int" => some int
  | "double" => some double
  | "char" => some char
  | "void" => some void
  | "Matrix" => some matrix
  | "Vector" => some vector
  | _ => none

/-- Matrices and vectors, which have a wrapping of their own. -/
def isEigen : Builtin → Bool
  | matrix | vector => true
  | _ => false

end Builtin

/-- How a type is passed: plain, `&` or `*`. -/
inductive Indirection where
  | value
  | reference
  | pointer
deriving DecidableEq, Repr, Inhabited

def Indirection.mark : Indirection → String
  | value => ""
  | reference => "&"
  | pointer => "*"

/-- A type in a signature. With a `wrapper`, such as `boost::shared_ptr`, `name` is what it points
to. -/
structure TypeExpr where
  id : NodeId
  isConst : Bool
  name : QualifiedName
  wrapper : Option QualifiedName
  indirection : Indirection
  span : Span
deriving DecidableEq, Repr, Inhabited

namespace TypeExpr

/-- The builtin the name stands for; a qualified name never stands for one. -/
def builtin? (type : TypeExpr) : Option Builtin :=
  if type.name.isQualified then none else Builtin.ofName? type.name.name

/-- Whether the name has to be that of a class. -/
def isClassReference (type : TypeExpr) : Bool := type.builtin?.isNone

def text (type : TypeExpr) : String :=
  let core := match type.wrapper with
    | some wrapper => wrapper.text ++ "<" ++ type.name.text ++ ">"
    | none => type.name.text
  (if type.isConst then "const " else "") ++ core ++ type.indirection.mark

end TypeExpr

/-! ## Members -/

structure ParameterDecl where
  id : NodeId
  name : String
  type : TypeExpr
deriving DecidableEq, Repr, Inhabited

structure ConstructorDecl where
  id : NodeId
  params : List ParameterDecl
  span : Span
deriving DecidableEq, Repr, Inhabited

/-- A method, static or not. -/
structure MethodDecl where
  id : NodeId
  name : String
  isStatic : Bool
  isConst : Bool
  params : List ParameterDecl
  returns : TypeExpr
  span : Span
deriving DecidableEq, Repr, Inhabited

inductive MemberDecl where
  | constructor (decl : ConstructorDecl)
  | method (decl : MethodDecl)
deriving DecidableEq, Repr, Inhabited

namespace MemberDecl

def span : MemberDecl → Span
  | constructor decl => decl.span
  | method decl => decl.span

def params : MemberDecl → List ParameterDecl
  | constructor decl => decl.params
  | method decl => decl.params

/-- The types of a member in reading order: what it returns, then its parameters. -/
def types : MemberDecl → List TypeExpr
  | constructor decl => decl.params.map (·.type)
  | method decl => decl.returns :: decl.params.map (·.type)

def method? : MemberDecl → Option MethodDecl
  | constructor _ => none
  | method decl => some decl

/-- The signature as diagnostics show it: `Owner::name(type name, …)`. -/
def signature (owner : String) (member : MemberDecl) : String :=
  let name := match member with
    | constructor _ => owner
    | method decl => decl.name
  let params := member.params.map fun p => p.type.text ++ " " ++ p.name
  owner ++ "::" ++ name ++ "(" ++ ", ".intercalate params ++ ")"

end MemberDecl

/-! ## Items -/

/-- A class with a body. -/
structure ClassDecl where
  id : NodeId
  name : String
  override : Option IncludeOverride
  members : List MemberDecl
  span : Span
deriving DecidableEq, Repr, Inhabited

/-- A class asserted to exist elsewhere: `class Name;`. -/
structure ForwardDecl where
  id : NodeId
  name : String
  span : Span
deriving DecidableEq, Repr, Inhabited

/-- A namespace without its contents. -/
structure NamespaceHead where
  id : NodeId
  /-- `none` for an anonymous namespace, which adds nothing to the paths inside it. -/
  name : Option String
  override : Option IncludeOverride
  /-- The name behind the end marker. -/
  closeName : Option String
  span : Span
deriving DecidableEq, Repr, Inhabited

inductive Item where
  | space (head : NamespaceHead) (items : List Item)
  | definition (decl : ClassDecl)
  | forward (decl : ForwardDecl)
deriving Repr, Inhabited

namespace Item

/-- To show something of all lists of items, show it of the empty list and that each kind of item in
front keeps it; a namespace may rely on it for the items inside. -/
theorem induction {motive : List Item → Prop} (nil : motive [])
    (space : ∀ head items rest, motive items → motive rest → motive (.space head items :: rest))
    (definition : ∀ decl rest, motive rest → motive (.definition decl :: rest))
    (forward : ∀ decl rest, motive rest → motive (.forward decl :: rest)) :
    ∀ items, motive items
  | [] => nil
  | .space head items :: rest =>
    space head items rest (induction nil space definition forward items)
      (induction nil space definition forward rest)
  | .definition decl :: rest => definition decl rest (induction nil space definition forward rest)
  | .forward decl :: rest => forward decl rest (induction nil space definition forward rest)

end Item

/-- A class or forward declaration with the named namespaces around it. -/
structure Scoped (α : Type) where
  scope : List String
  decl : α
deriving Repr

inductive Declaration where
  | definition (decl : ClassDecl)
  | forward (decl : ForwardDecl)
deriving DecidableEq, Repr, Inhabited

namespace Declaration

def id : Declaration → NodeId
  | definition decl => decl.id
  | forward decl => decl.id

def name : Declaration → String
  | definition decl => decl.name
  | forward decl => decl.name

def span : Declaration → Span
  | definition decl => decl.span
  | forward decl => decl.span

end Declaration

mutual

/-- The classes and forward declarations of an item in reading order, each with its scope. -/
def Item.declarations (scope : List String) : Item → List (Scoped Declaration)
  | .space head items => Item.allDeclarations (scope ++ head.name.toList) items
  | .definition decl => [⟨scope, .definition decl⟩]
  | .forward decl => [⟨scope, .forward decl⟩]

/-- The classes and forward declarations of a list of items in reading order. -/
def Item.allDeclarations (scope : List String) : List Item → List (Scoped Declaration)
  | [] => []
  | item :: rest => item.declarations scope ++ Item.allDeclarations scope rest

end

/-- The classes with a body among declarations. -/
def Declaration.definitions (all : List (Scoped Declaration)) : List (Scoped ClassDecl) :=
  all.filterMap fun d =>
    match d.decl with
    | .definition decl => some ⟨d.scope, decl⟩
    | .forward _ => none

/-- A parsed interface file. -/
structure InterfaceFile where
  items : List Item
deriving Repr, Inhabited

namespace InterfaceFile

def declarations (file : InterfaceFile) : List (Scoped Declaration) :=
  Item.allDeclarations [] file.items

def definitions (file : InterfaceFile) : List (Scoped ClassDecl) :=
  Declaration.definitions file.declarations

/-- The types of all signatures in reading order. -/
def types (file : InterfaceFile) : List TypeExpr :=
  file.definitions.flatMap fun d => d.decl.members.flatMap MemberDecl.types

end InterfaceFile

end BindingIdl
