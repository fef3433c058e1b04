import BindingIdl.Diagnostic
import BindingIdl.Symbol

/-!
# Resolution of names

`SymbolTable.collect` records every class of a file, then `SymbolTable.resolveAll` finds what each
class-typed reference means. Because every class is known before the first reference is looked at,
the order of declarations does not matter.

A qualified name is taken from the root. A bare name is looked for in the namespace of its class,
then in each enclosing one, the file's root last. What is not found that way may still be a root
stub.
-/

namespace BindingIdl

/-- The namespaces around a scope, the scope itself first and the root last. -/
def enclosingScopes (scope : List String) : List (List String) :=
  (List.range (scope.length + 1)).reverse.map scope.take

/-- The paths a name may stand for inside a scope, in the order they are tried. -/
def QualifiedName.candidates (name : QualifiedName) (scope : List String) : List QualifiedName :=
  if name.isQualified then [name] else (enclosingScopes scope).map (⟨·, name.name⟩)

namespace SymbolTable

/-! ## Collecting -/

/-- Record one declaration; a second definition of a class is an error. -/
def collectOne (table : SymbolTable) (d : Scoped Declaration) : Except Diagnostic SymbolTable :=
  let path := ⟨d.scope, d.decl.name⟩
  match table.declare path (SymbolKind.ofDeclaration d.decl) d.decl.id d.decl.span with
  | .ok (_, table) => .ok table
  | .error first =>
    let earlier := ((table.symbol? first).map (·.span)).getD default
    .error (.about d.decl.span (.duplicateClass path earlier.extent))

/-- The table of all classes of a file. -/
def collect (file : InterfaceFile) : Except Diagnostic SymbolTable :=
  file.declarations.foldlM collectOne empty

/-! ## References -/

/-- What a name means inside a scope. -/
def resolve? (table : SymbolTable) (scope : List String) (name : QualifiedName) :
    Option Reference :=
  match (name.candidates scope).findSome? (table.lookup ·.text) with
  | some id => (table.symbol? id).map fun symbol => ⟨id, symbol.path, symbol.isForwardOnly⟩
  | none => (table.rootStub name.name).map (⟨·, name, true⟩)

/-- Resolve one type of a member of class `owner`. Builtin types mean themselves. -/
def resolveType (scope : List String) (owner : String) (member : MemberDecl) (table : SymbolTable)
    (type : TypeExpr) : Except Diagnostic SymbolTable :=
  if type.isClassReference then
    match table.resolve? scope type.name with
    | some reference => .ok (table.record type.id reference)
    | none => .error <| .about type.span <|
        .unresolvedType type.name (member.signature owner) (type.name.candidates scope)
  else .ok table

/-- Resolve the types of one class, member by member. -/
def resolveClass (table : SymbolTable) (d : Scoped ClassDecl) : Except Diagnostic SymbolTable :=
  d.decl.members.foldlM (fun table member =>
    member.types.foldlM (resolveType d.scope d.decl.name member) table) table

/-- Resolve every type of a file. -/
def resolveAll (table : SymbolTable) (file : InterfaceFile) : Except Diagnostic SymbolTable :=
  file.definitions.foldlM resolveClass table

/-- The classes and references of a file. -/
def ofFile (file : InterfaceFile) : Except Diagnostic SymbolTable := do
  (← collect file).resolveAll file

end SymbolTable

end BindingIdl
