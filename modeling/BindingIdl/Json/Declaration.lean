import BindingIdl.Declaration
import BindingIdl.Json

/-!
# Documents of parsed files

The tree of an interface file as written, every node with its id and span.
-/

namespace BindingIdl

def Span.toJson (s : Span) : Json :=
  .object [("start", .number s.start), ("end", .number s.stop), ("line", .number s.line)]

def QualifiedName.toJson (q : QualifiedName) : Json :=
  .object [("namespaces", .ofStrings q.namespaces), ("name", .text q.name)]

def IncludeOverride.toJson (i : IncludeOverride) : Json :=
  .object [("path", .text i.path), ("span", i.span.toJson)]

def Indirection.toJson : Indirection → Json
  | .value => .text "Value"
  | .reference => .text "Reference"
  | .pointer => .text "Pointer"

def TypeExpr.toJson (type : TypeExpr) : Json :=
  .object [("id", .number type.id), ("is_const", .bool type.isConst), ("name", type.name.toJson),
    ("wrapper", .ofOption QualifiedName.toJson type.wrapper),
    ("indirection", type.indirection.toJson), ("span", type.span.toJson)]

def ParameterDecl.toJson (param : ParameterDecl) : Json :=
  .object [("id", .number param.id), ("name", .text param.name), ("ty", param.type.toJson)]

def ConstructorDecl.toJson (decl : ConstructorDecl) : Json :=
  .object [("id", .number decl.id), ("params", .ofList ParameterDecl.toJson decl.params),
    ("span", decl.span.toJson)]

def MethodDecl.toJson (decl : MethodDecl) : Json :=
  .object [("id", .number decl.id), ("name", .text decl.name), ("is_static", .bool decl.isStatic),
    ("is_const", .bool decl.isConst), ("params", .ofList ParameterDecl.toJson decl.params),
    ("return_type", decl.returns.toJson), ("span", decl.span.toJson)]

def MemberDecl.toJson : MemberDecl → Json
  | .constructor decl => .tagged "Constructor" decl.toJson
  | .method decl => .tagged "Method" decl.toJson

def ClassDecl.toJson (decl : ClassDecl) : Json :=
  .object [("id", .number decl.id), ("name", .text decl.name),
    ("include", .ofOption IncludeOverride.toJson decl.override),
    ("members", .ofList MemberDecl.toJson decl.members), ("span", decl.span.toJson)]

def ForwardDecl.toJson (decl : ForwardDecl) : Json :=
  .object [("id", .number decl.id), ("name", .text decl.name), ("span", decl.span.toJson)]

/-- A namespace whose items have these documents. -/
def NamespaceHead.toJson (head : NamespaceHead) (items : List Json) : Json :=
  .object [("id", .number head.id), ("name", .ofOption .text head.name),
    ("include", .ofOption IncludeOverride.toJson head.override), ("items", .array items),
    ("close_name", .ofOption .text head.closeName), ("span", head.span.toJson)]

mutual

def Item.toJson : Item → Json
  | .space head items => .tagged "Namespace" (head.toJson (Item.documents items))
  | .definition decl => .tagged "Class" decl.toJson
  | .forward decl => .tagged "ForwardDecl" decl.toJson

def Item.documents : List Item → List Json
  | [] => []
  | item :: rest => item.toJson :: Item.documents rest

end

def InterfaceFile.toJson (file : InterfaceFile) : Json :=
  .object [("items", .array (Item.documents file.items))]

end BindingIdl
