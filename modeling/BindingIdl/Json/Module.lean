import BindingIdl.Json
import BindingIdl.Module

/-!
# Documents of module trees
-/

namespace BindingIdl

def Primitive.toJson : Primitive → Json
  | .string => .text "String"
  | .bool => .text "Bool"
  | .size => .text "SizeT"
  | .int => .text "Int"
  | .double => .text "Double"
  | .char => .text "Char"
  | .void => .text "Void"

def TypeKind.toJson : TypeKind → Json
  | .primitive p => .tagged "Primitive" p.toJson
  | .eigenMatrix => .text "EigenMatrix"
  | .eigenVector => .text "EigenVector"
  | .classValue => .text "ClassValue"
  | .classConstReference => .text "ClassConstRef"
  | .sharedPointer => .text "SharedPointer"
  | .rawPointer => .text "RawPointer"

def Wrapping.toJson : Wrapping → Json
  | .byValueCopy => .text "ByValueCopy"
  | .byConstReference => .text "ByConstReference"
  | .byOwnedPointer => .text "ByOwnedPointer"
  | .byRawValue => .text "ByRawValue"
  | .byMatrix => .text "ByMatrix"
  | .byVector => .text "ByVector"

def ClassOrigin.toJson : ClassOrigin → Json
  | .declared => .text "Declared"
  | .external => .text "External"

def TypeRef.toJson (type : TypeRef) : Json :=
  .object [("kind", type.kind.toJson), ("wrapping", type.wrapping.toJson),
    ("namespaces", .ofStrings type.namespaces), ("name", .text type.name),
    ("origin", .ofOption ClassOrigin.toJson type.origin),
    ("transfers_ownership", .bool type.transfersOwnership)]

def Argument.toJson (arg : Argument) : Json :=
  .object [("name", .text arg.name), ("ty", arg.type.toJson)]

def Constructor.toJson (c : Constructor) : Json :=
  .object [("args", .ofList Argument.toJson c.args)]

def Method.toJson (m : Method) : Json :=
  .object [("name", .text m.name), ("args", .ofList Argument.toJson m.args),
    ("returns", m.returns.toJson), ("is_const", .bool m.isConst)]

def StaticMethod.toJson (m : StaticMethod) : Json :=
  .object [("name", .text m.name), ("args", .ofList Argument.toJson m.args),
    ("returns", m.returns.toJson)]

def Member.toJson : Member → Json
  | .constructor c => .tagged "Constructor" c.toJson
  | .method m => .tagged "Method" m.toJson
  | .staticMethod m => .tagged "StaticMethod" m.toJson

def Class.toJson (c : Class) : Json :=
  .object [("name", .text c.name), ("namespaces", .ofStrings c.namespaces),
    ("include", .ofOption .text c.override), ("header", .text c.header),
    ("forward_only", .bool c.forwardOnly), ("members", .ofList Member.toJson c.members)]

mutual

def Namespace.toJson : Namespace → Json
  | ⟨name, path, override, namespaces, classes⟩ =>
    .object [("name", .ofOption .text name), ("path", .ofStrings path),
      ("include", .ofOption .text override),
      ("namespaces", .array (Namespace.documents namespaces)),
      ("classes", .ofList Class.toJson classes)]

def Namespace.documents : List Namespace → List Json
  | [] => []
  | space :: rest => space.toJson :: Namespace.documents rest

end

def Module.toJson (m : Module) : Json :=
  .object [("namespaces", .array (Namespace.documents m.namespaces)),
    ("classes", .ofList Class.toJson m.classes)]

end BindingIdl
