import BindingIdl.Module.Wrapping
import BindingIdl.Settings
import BindingIdl.Symbol

/-!
# From resolved declarations to the module tree

`Module.ofFile` gives every type of a resolved file its kind and builds the module tree. The first
thing that is wrong, class by class in the order of the file, ends it:

* in a class, first of all a method name that is repeated among the methods, or among the static
  ones;
* then, member by member, an argument type or a return type that is not legal;
* a constructor that repeats the argument types of an earlier one, or, where the settings ask for
  it, cannot be told from an earlier one by arity and initials.

A forward declaration stands in the tree only if the file defines no class of its path, and then
where it is first made.
-/

namespace BindingIdl

/-! ## Types -/

/-- The reference that a class type resolves to. -/
def TypeRef.ofReference (wrapped : WrappedKind) (position : TypePosition) (reference : Reference) :
    TypeRef where
  kind := wrapped.kind
  wrapping := wrapped.wrapping
  namespaces := reference.path.namespaces
  name := reference.path.name
  origin := some (if reference.external then .external else .declared)
  transfersOwnership := wrapped.kind = .rawPointer && position = .returned

/-- A builtin type. -/
def TypeRef.ofBuiltin (wrapped : WrappedKind) (name : String) : TypeRef where
  kind := wrapped.kind
  wrapping := wrapped.wrapping
  namespaces := []
  name := name
  origin := none
  transfersOwnership := false

/-- Classify one type of a member of class `owner`. -/
def TypeRef.classify (table : SymbolTable) (owner : String) (member : MemberDecl)
    (position : TypePosition) (type : TypeExpr) : Except Diagnostic TypeRef :=
  let illegal (fault : WrappingFault) : Diagnostic :=
    .about type.span (.invalidWrapping type.text (member.signature owner) fault)
  match type.builtin? with
  | some builtin =>
    match builtin.wrapping position type with
    | .ok wrapped => .ok (.ofBuiltin wrapped type.name.name)
    | .error fault => .error (illegal fault)
  | none =>
    -- a table from resolution has an entry for every reference in the file
    match table.reference? type.id with
    | none =>
      .error (.about type.span (.unresolvedType type.name (member.signature owner) [type.name]))
    | some reference =>
      match classWrapping position type with
      | .ok wrapped => .ok (.ofReference wrapped position reference)
      | .error fault => .error (illegal fault)

/-! ## Overloads -/

/-- The first element that has the key of an earlier one, behind that earlier one; `seen` holds the
elements already passed. -/
def firstRepeat? {α κ : Type} [DecidableEq κ] (key : α → κ) (seen : List α) :
    List α → Option (α × α)
  | [] => none
  | a :: rest =>
    match seen.find? (key · = key a) with
    | some first => some (first, a)
    | none => firstRepeat? key (a :: seen) rest

/-- Methods and static methods must each have different names. -/
def ClassDecl.repeatedMethod? (decl : ClassDecl) : Option Diagnostic :=
  let methods := decl.members.filterMap MemberDecl.method?
  (firstRepeat? (fun m : MethodDecl => (m.isStatic, m.name)) [] methods).map fun (first, again) =>
    .about again.span (.duplicateMember decl.name again.name first.span.extent)

/-- The argument types of a constructor as far as overloading sees them. -/
def Constructor.exactKey (c : Constructor) : List (TypeKind × String) :=
  c.args.map fun arg => (arg.type.kind, arg.type.qualifiedName)

/-- What generated code tells overloads apart by: arity and the first letters of the argument types,
as in `2:dd`. -/
def Constructor.key (c : Constructor) : String :=
  toString c.args.length ++ ":" ++ String.ofList (c.args.filterMap (·.type.name.toList.head?))

/-- A constructor that has been let in, with its place. -/
structure PlacedConstructor where
  decl : Constructor
  span : Span
deriving DecidableEq, Repr, Inhabited

/-- What keeps a constructor of class `owner` from joining the earlier ones. -/
def PlacedConstructor.clash? (settings : CheckSettings) (owner : String)
    (earlier : List PlacedConstructor) (this : PlacedConstructor) : Option Diagnostic :=
  match earlier.find? (·.decl.exactKey = this.decl.exactKey) with
  | some first => some (.about this.span (.duplicateMember owner owner first.span.extent))
  | none =>
    if settings.rejectAmbiguousConstructors then
      (earlier.find? (·.decl.key = this.decl.key)).map fun first =>
        .about this.span (.ambiguousConstructor owner this.decl.key first.span.extent)
    else none

/-! ## Members -/

def Argument.classifyAll (table : SymbolTable) (owner : String) (member : MemberDecl) :
    Except Diagnostic (List Argument) :=
  member.params.mapM fun param => do
    return ⟨param.name, ← TypeRef.classify table owner member .argument param.type⟩

/-- A method once its types are classified. -/
def Member.ofMethod (decl : MethodDecl) (args : List Argument) (returns : TypeRef) : Member :=
  if decl.isStatic then .staticMethod ⟨decl.name, args, returns⟩
  else .method ⟨decl.name, args, returns, decl.isConst⟩

/-- Classify the members of class `owner`, behind the constructors in `earlier`. -/
def Member.classifyAll (table : SymbolTable) (settings : CheckSettings) (owner : String)
    (earlier : List PlacedConstructor) : List MemberDecl → Except Diagnostic (List Member)
  | [] => .ok []
  | .constructor decl :: rest => do
    let args ← Argument.classifyAll table owner (.constructor decl)
    let this : PlacedConstructor := ⟨⟨args⟩, decl.span⟩
    match this.clash? settings owner earlier with
    | some clash => .error clash
    | none =>
      return .constructor this.decl
        :: (← Member.classifyAll table settings owner (earlier ++ [this]) rest)
  | .method decl :: rest => do
    let args ← Argument.classifyAll table owner (.method decl)
    let returns ← TypeRef.classify table owner (.method decl) .returned decl.returns
    return .ofMethod decl args returns
      :: (← Member.classifyAll table settings owner earlier rest)

/-! ## Classes and namespaces -/

/-- The header of a class for which none is named. -/
def conventionalHeader (name : String) : String := name ++ ".h"

/-- A class in a scope where `inherited` is the header named for the namespaces around it. -/
def Class.ofDecl (table : SymbolTable) (settings : CheckSettings) (scope : List String)
    (inherited : Option String) (decl : ClassDecl) : Except Diagnostic Class :=
  match decl.repeatedMethod? with
  | some clash => .error clash
  | none => do
    let members ← Member.classifyAll table settings decl.name [] decl.members
    let override := decl.override.map (·.path)
    return {
      name := decl.name
      namespaces := scope
      override
      header := (override <|> inherited).getD (conventionalHeader decl.name)
      forwardOnly := false
      members }

/-- A class that is declared and not defined. -/
def Class.ofForward (scope : List String) (decl : ForwardDecl) : Class where
  name := decl.name
  namespaces := scope
  override := none
  header := conventionalHeader decl.name
  forwardOnly := true
  members := []

/-- Whether a path belongs to a class that the file only forward declares. -/
def SymbolTable.isForwardOnly (table : SymbolTable) (path : String) : Bool :=
  ((table.lookup path).bind table.symbol?).any Symbol.isForwardOnly

mutual

/-- An item without the forward declarations that add nothing: those of defined classes, and those
of the paths in `placed`. The second part of the answer is `placed` with the paths that now have a
place. -/
def Item.settle (table : SymbolTable) (scope placed : List String) :
    Item → List Item × List String
  | .space head items =>
    let (items, placed) := Item.settleAll table (scope ++ head.name.toList) placed items
    ([.space head items], placed)
  | .definition decl => ([.definition decl], placed)
  | .forward decl =>
    let path := QualifiedName.text ⟨scope, decl.name⟩
    if table.isForwardOnly path && path ∉ placed then ([.forward decl], path :: placed)
    else ([], placed)

def Item.settleAll (table : SymbolTable) (scope placed : List String) :
    List Item → List Item × List String
  | [] => ([], placed)
  | item :: rest =>
    let (settled, placed) := item.settle table scope placed
    let (others, placed) := Item.settleAll table scope placed rest
    (settled ++ others, placed)

end

/-- Two levels of a tree side by side. -/
def Module.beside (m n : Module) : Module :=
  ⟨m.namespaces ++ n.namespaces, m.classes ++ n.classes⟩

mutual

/-- What an item adds to its level of the tree. -/
def Item.classify (table : SymbolTable) (settings : CheckSettings) (scope : List String)
    (inherited : Option String) : Item → Except Diagnostic Module
  | .space head items => do
    let path := scope ++ head.name.toList
    let override := head.override.map (·.path)
    let inside ← Item.classifyAll table settings path (override <|> inherited) items
    return ⟨[⟨head.name, path, override, inside.namespaces, inside.classes⟩], []⟩
  | .definition decl => do
    return ⟨[], [← Class.ofDecl table settings scope inherited decl]⟩
  | .forward decl => .ok ⟨[], [.ofForward scope decl]⟩

def Item.classifyAll (table : SymbolTable) (settings : CheckSettings) (scope : List String)
    (inherited : Option String) : List Item → Except Diagnostic Module
  | [] => .ok ⟨[], []⟩
  | item :: rest => do
    let this ← item.classify table settings scope inherited
    return this.beside (← Item.classifyAll table settings scope inherited rest)

end

/-- The module tree of a file whose names `table` resolves. -/
def Module.ofFile (settings : CheckSettings) (table : SymbolTable) (file : InterfaceFile) :
    Except Diagnostic Module :=
  Item.classifyAll table settings [] none (Item.settleAll table [] [] file.items).1

end BindingIdl
