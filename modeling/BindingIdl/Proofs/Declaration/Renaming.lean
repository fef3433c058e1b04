import BindingIdl.Declaration

/-!
# Types under other names

In `InterfaceFile.renamed name`, every type of a file goes by the name that `name` gives it. Its ids
and places are kept, and so is everything else: what the file declares and where
(`InterfaceFile.declarations_renamed`), and which types stand in which signature.
-/

namespace BindingIdl

/-- A declaration put in the place of another one. -/
def Scoped.map {α β : Type} (f : α → β) (d : Scoped α) : Scoped β := ⟨d.scope, f d.decl⟩

variable (name : TypeExpr → QualifiedName)

/-- The type itself is what `name` decides on, so two types of one name may get different ones. -/
def TypeExpr.renamed (type : TypeExpr) : TypeExpr := { type with name := name type }

/-- The name of the parameter stays. -/
def ParameterDecl.renamed (param : ParameterDecl) : ParameterDecl :=
  { param with type := param.type.renamed name }

/-- A method's result is renamed like its parameters. -/
def MemberDecl.renamed : MemberDecl → MemberDecl
  | constructor decl => .constructor { decl with params := decl.params.map (·.renamed name) }
  | method decl => .method
    { decl with
      params := decl.params.map (·.renamed name)
      returns := decl.returns.renamed name }

/-- The name of the class stays: only what its signatures mention is renamed. -/
def ClassDecl.renamed (decl : ClassDecl) : ClassDecl :=
  { decl with members := decl.members.map (·.renamed name) }

/-- A forward declaration mentions no type. -/
def Declaration.renamed : Declaration → Declaration
  | definition decl => .definition (decl.renamed name)
  | forward decl => .forward decl

mutual

/-- Namespaces stay where they are, with their names. -/
def Item.renamed : Item → Item
  | .space head items => .space head (Item.renamedAll items)
  | .definition decl => .definition (decl.renamed name)
  | .forward decl => .forward decl

/-- The types of all items, at any depth. -/
def Item.renamedAll : List Item → List Item
  | [] => []
  | item :: rest => item.renamed :: Item.renamedAll rest

end

/-- The file with every type under its new name. -/
def InterfaceFile.renamed (file : InterfaceFile) : InterfaceFile :=
  ⟨Item.renamedAll name file.items⟩

@[simp] theorem MemberDecl.types_renamed (m : MemberDecl) :
    (m.renamed name).types = m.types.map (·.renamed name) := by
  cases m <;> simp [renamed, types, ParameterDecl.renamed]

/-- Classes and forward declarations stand where they stood. -/
theorem Item.allDeclarations_renamed (scope : List String) (items : List Item) :
    Item.allDeclarations scope (renamedAll name items) =
      (Item.allDeclarations scope items).map (Scoped.map (Declaration.renamed name)) := by
  induction items using Item.induction generalizing scope with
  | nil => rfl
  | space head items rest ih ihrest =>
    rw [renamedAll, renamed, Item.allDeclarations, Item.declarations, ih, ihrest, ← List.map_append]
    rfl
  | definition decl rest ih => exact congrArg (_ :: ·) (ih scope)
  | forward decl rest ih => exact congrArg (_ :: ·) (ih scope)

namespace InterfaceFile

variable (file : InterfaceFile)

/-- What is declared, and where, stays. -/
theorem declarations_renamed : (file.renamed name).declarations =
    file.declarations.map (Scoped.map (Declaration.renamed name)) :=
  Item.allDeclarations_renamed name [] file.items

theorem definitions_renamed : (file.renamed name).definitions =
    file.definitions.map (Scoped.map (ClassDecl.renamed name)) := by
  rw [definitions, declarations_renamed, definitions, Declaration.definitions,
    Declaration.definitions, List.filterMap_map, List.map_filterMap]
  congr 1
  funext d
  obtain ⟨scope, decl⟩ := d
  cases decl <;> rfl

end InterfaceFile

end BindingIdl
