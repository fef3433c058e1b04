import BindingIdl.Module

/-!
# Canonical interface text

A module tree written as an interface file again: classes before the namespaces beside them, two
blanks in front of a member, every class name with its full path. Reading the text gives the same
tree.
-/

namespace BindingIdl

def TypeRef.text (type : TypeRef) : String :=
  match type.kind with
  | .primitive p => p.text
  | .eigenMatrix => "Matrix"
  | .eigenVector => "Vector"
  | .classValue => type.qualifiedName
  | .classConstReference => "const " ++ type.qualifiedName ++ "&"
  | .sharedPointer => "boost::shared_ptr<" ++ type.qualifiedName ++ ">"
  | .rawPointer => type.qualifiedName ++ "*"

/-- Arguments in their parentheses. -/
def Argument.listText (args : List Argument) : String :=
  "(" ++ ", ".intercalate (args.map fun arg => arg.type.text ++ " " ++ arg.name) ++ ")"

/-- A member of class `owner`, without indentation. -/
def Member.text (owner : String) : Member → String
  | constructor c => owner ++ Argument.listText c.args ++ ";"
  | method m =>
    m.returns.text ++ " " ++ m.name ++ Argument.listText m.args
      ++ (if m.isConst then " const" else "") ++ ";"
  | staticMethod m =>
    "static " ++ m.returns.text ++ " " ++ m.name ++ Argument.listText m.args ++ ";"

/-- The include line in front of a class or namespace that has a header of its own. -/
def overrideText : Option String → String
  | none => ""
  | some path => "#include <" ++ path ++ ">\n"

def Class.text (c : Class) : String :=
  if c.forwardOnly then "class " ++ c.name ++ ";\n"
  else
    overrideText c.override ++ "class " ++ c.name ++ " \x7b\n"
      ++ String.join (c.members.map fun m => "  " ++ m.text c.name ++ "\n") ++ "\x7d;\n"

/-- A blank and a name, or nothing for what has none. -/
private def spaced : Option String → String
  | none => ""
  | some name => " " ++ name

mutual

def Namespace.text : Namespace → String
  | ⟨name, _, override, namespaces, classes⟩ =>
    overrideText override ++ "namespace" ++ spaced name ++ " \x7b\n"
      ++ String.join (classes.map Class.text) ++ Namespace.textOfAll namespaces
      ++ "\x7d///\\namespace" ++ spaced name ++ "\n"

def Namespace.textOfAll : List Namespace → String
  | [] => ""
  | space :: rest => space.text ++ Namespace.textOfAll rest

end

def Module.text (m : Module) : String :=
  String.join (m.classes.map Class.text) ++ Namespace.textOfAll m.namespaces

end BindingIdl
