import BindingIdl.Name

/-!
# The module tree

What a binding generator works from: the classes of one interface file under their namespaces, every
name fully qualified, and every type in a signature with the way it crosses the binding boundary.

A namespace may be opened more than once, and may have no name; the tree keeps each opening apart.
Within one opening, classes and inner namespaces are two lists, each in the order of the file.
-/

namespace BindingIdl

/-! ## Types -/

inductive Primitive where
  | string
  | bool
  | size
  | int
  | double
  | char
  | void
deriving DecidableEq, Repr, Inhabited

/-- The spelling in an interface file. -/
def Primitive.text : Primitive → String
  | string => "string"
  | bool => "bool"
  | size => "size_t"
  | int => "int"
  | double => "double"
  | char => "char"
  | void => "void"

/-- What a type in a signature denotes. -/
inductive TypeKind where
  | primitive (p : Primitive)
  | eigenMatrix
  | eigenVector
  | classValue
  | classConstReference
  | sharedPointer
  /-- A plain pointer; only classes are passed this way. -/
  | rawPointer
deriving DecidableEq, Repr, Inhabited

def TypeKind.isClass : TypeKind → Bool
  | classValue | classConstReference | sharedPointer | rawPointer => true
  | primitive _ | eigenMatrix | eigenVector => false

/-- How a generator moves a value across the binding boundary. -/
inductive Wrapping where
  | byValueCopy
  | byConstReference
  /-- Ownership is shared through a smart pointer. -/
  | byOwnedPointer
  | byRawValue
  | byMatrix
  | byVector
deriving DecidableEq, Repr, Inhabited

/-- Where the class of a reference comes from. -/
inductive ClassOrigin where
  /-- It is defined in this file. -/
  | declared
  /-- It is only forward declared. -/
  | external
deriving DecidableEq, Repr, Inhabited

/-- A classified type of a signature. -/
structure TypeRef where
  kind : TypeKind
  wrapping : Wrapping
  /-- The namespaces of a class; empty for other types. -/
  namespaces : List String
  name : String
  /-- Only references to classes have one. -/
  origin : Option ClassOrigin
  /-- The caller owns what a raw pointer returns. -/
  transfersOwnership : Bool
deriving DecidableEq, Repr, Inhabited

/-- The full path of a class, or the spelling of any other type. -/
def TypeRef.qualifiedName (type : TypeRef) : String :=
  QualifiedName.text ⟨type.namespaces, type.name⟩

/-! ## Members -/

structure Argument where
  name : String
  type : TypeRef
deriving DecidableEq, Repr, Inhabited

structure Constructor where
  args : List Argument
deriving DecidableEq, Repr, Inhabited

structure Method where
  name : String
  args : List Argument
  returns : TypeRef
  isConst : Bool
deriving DecidableEq, Repr, Inhabited

structure StaticMethod where
  name : String
  args : List Argument
  returns : TypeRef
deriving DecidableEq, Repr, Inhabited

inductive Member where
  | constructor (c : Constructor)
  | method (m : Method)
  | staticMethod (m : StaticMethod)
deriving DecidableEq, Repr, Inhabited

namespace Member

def constructor? : Member → Option Constructor
  | constructor c => some c
  | _ => none

def method? : Member → Option Method
  | method m => some m
  | _ => none

def staticMethod? : Member → Option StaticMethod
  | staticMethod m => some m
  | _ => none

def args : Member → List Argument
  | constructor c => c.args
  | method m => m.args
  | staticMethod m => m.args

def returns? : Member → Option TypeRef
  | constructor _ => none
  | method m => some m.returns
  | staticMethod m => some m.returns

/-- The types a member mentions: what it returns, then its arguments. -/
def types (m : Member) : List TypeRef := m.returns?.toList ++ m.args.map (·.type)

end Member

/-! ## Classes and namespaces -/

structure Class where
  name : String
  namespaces : List String
  /-- The header named right before the class, if one is. -/
  override : Option String
  /-- The header that generated code includes. -/
  header : String
  /-- Declared, but not defined in this file. -/
  forwardOnly : Bool
  members : List Member
deriving DecidableEq, Repr, Inhabited

namespace Class

def qualifiedName (c : Class) : String := QualifiedName.text ⟨c.namespaces, c.name⟩

def constructors (c : Class) : List Constructor := c.members.filterMap Member.constructor?

def methods (c : Class) : List Method := c.members.filterMap Member.method?

def staticMethods (c : Class) : List StaticMethod := c.members.filterMap Member.staticMethod?

def method? (c : Class) (name : String) : Option Method := c.methods.find? (·.name = name)

def staticMethod? (c : Class) (name : String) : Option StaticMethod :=
  c.staticMethods.find? (·.name = name)

/-- Every type the class mentions, member by member. -/
def types (c : Class) : List TypeRef := c.members.flatMap Member.types

end Class

/-- One opening of a namespace. -/
structure Namespace where
  /-- `none` for an anonymous namespace. -/
  name : Option String
  /-- The named namespaces from the root to here, this one included. -/
  path : List String
  /-- The header named right before the namespace, if one is. -/
  override : Option String
  namespaces : List Namespace
  classes : List Class
deriving Repr, Inhabited

structure Module where
  namespaces : List Namespace
  /-- The classes outside any namespace. -/
  classes : List Class
deriving Repr, Inhabited

/-! ## Equality -/

mutual

private def decideNamespace : (a b : Namespace) → Decidable (a = b)
  | ⟨name, path, override, namespaces, classes⟩, ⟨name', path', override', namespaces', classes'⟩ =>
    match decideNamespaces namespaces namespaces' with
    | .isFalse differ => .isFalse fun same => differ (Namespace.mk.inj same).2.2.2.1
    | .isTrue inner =>
      if rest : name = name' ∧ path = path' ∧ override = override' ∧ classes = classes' then
        .isTrue (by obtain ⟨rfl, rfl, rfl, rfl⟩ := rest; rw [inner])
      else
        .isFalse fun same => rest
          ⟨(Namespace.mk.inj same).1, (Namespace.mk.inj same).2.1, (Namespace.mk.inj same).2.2.1,
            (Namespace.mk.inj same).2.2.2.2⟩

private def decideNamespaces : (as bs : List Namespace) → Decidable (as = bs)
  | [], [] => .isTrue rfl
  | [], _ :: _ => .isFalse nofun
  | _ :: _, [] => .isFalse nofun
  | a :: as, b :: bs =>
    match decideNamespace a b, decideNamespaces as bs with
    | .isTrue head, .isTrue tail => .isTrue (by rw [head, tail])
    | .isFalse differ, _ => .isFalse fun same => differ (List.cons.inj same).1
    | _, .isFalse differ => .isFalse fun same => differ (List.cons.inj same).2

end

instance : DecidableEq Namespace := decideNamespace

deriving instance DecidableEq for Module

/-! ## Looking things up -/

mutual

/-- All classes of a namespace: its own, then those of each namespace inside it. -/
def Namespace.allClasses : Namespace → List Class
  | ⟨_, _, _, namespaces, classes⟩ => classes ++ Namespace.classesOfAll namespaces

/-- All classes of each namespace in turn. -/
def Namespace.classesOfAll : List Namespace → List Class
  | [] => []
  | space :: rest => space.allClasses ++ Namespace.classesOfAll rest

end

/-- The first opening of the namespace with a name. -/
def Namespace.named? (spaces : List Namespace) (name : String) : Option Namespace :=
  spaces.find? (·.name = some name)

namespace Namespace

def namespace? (space : Namespace) (name : String) : Option Namespace :=
  named? space.namespaces name

def class? (space : Namespace) (name : String) : Option Class :=
  space.classes.find? (·.name = name)

end Namespace

namespace Module

/-- Every class and forward declaration, those outside namespaces first. -/
def allClasses (m : Module) : List Class := m.classes ++ Namespace.classesOfAll m.namespaces

def forwardDeclarations (m : Module) : List Class := m.allClasses.filter (·.forwardOnly)

def definedClasses (m : Module) : List Class := m.allClasses.filter (!·.forwardOnly)

/-- A namespace outside any other. -/
def namespace? (m : Module) (name : String) : Option Namespace :=
  Namespace.named? m.namespaces name

/-- The namespace reached by going into one name after another. -/
def walk? (m : Module) : List String → Option Namespace
  | [] => none
  | first :: rest => rest.foldlM Namespace.namespace? =<< m.namespace? first

/-- The class or forward declaration with a full path. -/
def lookup (m : Module) (path : String) : Option Class :=
  m.allClasses.find? (·.qualifiedName = path)

end Module

end BindingIdl
