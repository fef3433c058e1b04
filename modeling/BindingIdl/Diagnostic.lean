import BindingIdl.Name
import BindingIdl.Token.Lexeme

/-!
# Diagnostics

A diagnostic is a cause with the place it is about. Causes are data: everything a reader sees of
one, its code, message, help, labels and symbol, is computed from the cause here and nowhere else.

Three causes are about two places (`duplicateClass`, `duplicateMember`, `ambiguousConstructor`);
they carry the extent of the earlier one.
-/

namespace BindingIdl

/-- What the grammar allows at the place where it was left. -/
inductive Expectation where
  | item
  | namespaceBody
  | className
  | forwardEnd
  | classBody
  | classClosing (name : String)
  | classTerminator (name : String)
  | constructorEnd
  | methodName
  | methodEnd
  | parameterList
  | parameterSeparator
  | parameterName
  | typeName
  /-- A type without an argument list: only shared pointers take one. -/
  | plainType
  | pointee
  | pointeeEnd
deriving DecidableEq, Repr, Inhabited

def Expectation.describe : Expectation → String
  | item => "`namespace`, `class` or `#include`"
  | namespaceBody => "`\x7b` to open namespace"
  | className => "class name"
  | forwardEnd => "`;` after forward declaration"
  | classBody => "`\x7b` or `;` after class name"
  | classClosing name => "`\x7d` to close class `" ++ name ++ "`"
  | classTerminator name => "`;` after body of class `" ++ name ++ "`"
  | constructorEnd => "`;` after constructor"
  | methodName => "method name"
  | methodEnd => "`;` after method declaration"
  | parameterList => "`(`"
  | parameterSeparator => "`,` or `)`"
  | parameterName => "parameter name"
  | typeName => "type name"
  | plainType => "type name (templates other than `shared_ptr` are not supported)"
  | pointee => "type inside `shared_ptr<>`"
  | pointeeEnd => "`>` closing `shared_ptr<`"

/-- Why a type cannot cross the binding boundary. -/
inductive WrappingFault where
  | heldEigen
  | heldPrimitive
  | misplacedVoid
  | builtinPointer
  | mutableReference
  | pointerToShared
deriving DecidableEq, Repr, Inhabited

def WrappingFault.reason : WrappingFault → String
  | heldEigen => "Eigen types cannot be held by a shared pointer"
  | heldPrimitive => "primitive types cannot be held by a shared pointer"
  | misplacedVoid => "`void` is only valid as a plain return type"
  | builtinPointer => "raw pointers are only supported for classes"
  | mutableReference => "non-const references are not supported"
  | pointerToShared => "pointers to shared pointers are not supported"

/-- Coarse classification of a cause, by what had to fail. -/
inductive DiagnosticKind where
  | lexical
  | grammar
  | resolution
  | unresolvedType
  | invalidWrapping
  | duplicateMember
deriving DecidableEq, Repr, Inhabited

namespace DiagnosticKind

def describe : DiagnosticKind → String
  | lexical => "LexError"
  | grammar => "ParseError"
  | resolution => "ResolutionError"
  | unresolvedType => "UnresolvedTypeError"
  | invalidWrapping => "InvalidWrappingError"
  | duplicateMember => "DuplicateMethodError"

/-- The tag that records carry. -/
def tag : DiagnosticKind → String
  | lexical => "Lex"
  | grammar => "Parse"
  | resolution => "Resolution"
  | unresolvedType => "UnresolvedType"
  | invalidWrapping => "InvalidWrapping"
  | duplicateMember => "DuplicateMethod"

end DiagnosticKind

inductive Cause where
  | unterminatedComment
  | unterminatedString
  | invalidInput (text : String)
  | unexpectedToken (expected : Expectation) (found : String)
  | unexpectedEnd (expected : Expectation)
  | namespaceName (name : String)
  | className (name : String)
  | methodName (owner name : String)
  | staticMethodName (owner name : String)
  | constStaticMethod (owner name : String)
  | crowdedLine (owner : String)
  /-- The namespace may have no name. -/
  | unclosedNamespace (name : Option String)
  | unmatchedNamespaceEnd
  | qualifiedForward (path : QualifiedName)
  | danglingInclude (path : String)
  | defaultArgument (owner member : String)
  | duplicateClass (path : QualifiedName) (first : Extent)
  | unresolvedType (name : QualifiedName) (signature : String) (tried : List QualifiedName)
  | invalidWrapping (type signature : String) (fault : WrappingFault)
  | duplicateMember (owner name : String) (first : Extent)
  | ambiguousConstructor (owner key : String) (first : Extent)
deriving DecidableEq, Repr, Inhabited

namespace Cause

def ofLexicalFault (text : String) : LexicalFault → Cause
  | .unterminatedComment => .unterminatedComment
  | .unterminatedString => .unterminatedString
  | .invalidInput => .invalidInput text

def kind : Cause → DiagnosticKind
  | unterminatedComment | unterminatedString | invalidInput _ => .lexical
  | unexpectedToken .. | unexpectedEnd _ | namespaceName _ | className _ | methodName ..
  | staticMethodName .. | constStaticMethod .. | crowdedLine _ | unclosedNamespace _
  | unmatchedNamespaceEnd | qualifiedForward _ | danglingInclude _ | defaultArgument .. => .grammar
  | duplicateClass .. => .resolution
  | unresolvedType .. => .unresolvedType
  | invalidWrapping .. => .invalidWrapping
  | duplicateMember .. | ambiguousConstructor .. => .duplicateMember

def code : Cause → String
  | unterminatedComment => "lex::unterminated_comment"
  | unterminatedString => "lex::unterminated_string"
  | invalidInput _ => "lex::invalid_input"
  | unexpectedToken .. => "parse::unexpected_token"
  | unexpectedEnd _ => "parse::unexpected_eof"
  | namespaceName _ => "parse::namespace_name"
  | className _ => "parse::class_name"
  | methodName .. => "parse::method_name"
  | staticMethodName .. => "parse::static_method_name"
  | constStaticMethod .. => "parse::const_static"
  | crowdedLine _ => "parse::one_declaration_per_line"
  | unclosedNamespace _ => "parse::unclosed_namespace"
  | unmatchedNamespaceEnd => "parse::unmatched_namespace_end"
  | qualifiedForward _ => "parse::qualified_forward_declaration"
  | danglingInclude _ => "parse::dangling_include"
  | defaultArgument .. => "parse::default_argument"
  | duplicateClass .. => "resolve::duplicate_class"
  | unresolvedType .. => "resolve::unresolved_type"
  | invalidWrapping .. => "check::invalid_wrapping"
  | duplicateMember .. => "check::duplicate_method"
  | ambiguousConstructor .. => "check::ambiguous_constructor"

/-- How a namespace without a name is spoken of. -/
def spokenName (name : Option String) : String := name.getD "<anonymous>"

/-- Paths as a reader sees them listed. -/
def pathList (paths : List QualifiedName) : String :=
  ", ".intercalate (paths.map fun path => "`" ++ path.text ++ "`")

/-- The message of a cause found on line `line`. -/
def message (line : Nat) : Cause → String
  | unterminatedComment => "Unterminated block comment"
  | unterminatedString => "Unterminated string literal"
  | invalidInput text => s!"Unrecognized input `{text}`"
  | unexpectedToken expected found =>
    "Unexpected token: expected " ++ expected.describe ++ ", found " ++ found
  | unexpectedEnd expected => "Unexpected end of file: expected " ++ expected.describe
  | namespaceName name => s!"Namespace `{name}` must start with a lowercase letter"
  | className name => s!"Class `{name}` must start with an uppercase letter"
  | methodName owner name => s!"Method `{owner}::{name}` must start with a lowercase letter"
  | staticMethodName owner name => s!"Static method `{owner}::{name}` must start with a letter"
  | constStaticMethod owner name => s!"Static method `{owner}::{name}` cannot be const"
  | crowdedLine owner => s!"More than one declaration on line {line} in class `{owner}`"
  | unclosedNamespace name => "Namespace `" ++ spokenName name ++ "` is never closed"
  | unmatchedNamespaceEnd => "Namespace end marker without an open namespace"
  | qualifiedForward path =>
    "Forward declaration `" ++ path.text ++ "` cannot carry a namespace qualification"
  | danglingInclude path =>
    s!"Include override `{path}` must immediately precede a namespace or class definition"
  | defaultArgument owner member =>
    s!"Default argument values are not supported (in `{owner}::{member}`)"
  | duplicateClass path _ => "Duplicate definition of class `" ++ path.text ++ "`"
  | unresolvedType name signature tried =>
    "Unresolved type `" ++ name.text ++ "` in `" ++ signature ++ "` (tried " ++ pathList tried
      ++ ")"
  | invalidWrapping type signature fault =>
    "Cannot wrap `" ++ type ++ "` in `" ++ signature ++ "`: " ++ fault.reason
  | duplicateMember owner name _ => s!"Duplicate member `{name}` in class `{owner}`"
  | ambiguousConstructor owner key _ =>
    s!"Ambiguous constructor overload in class `{owner}`: signature key `{key}` is already taken"

/-- Advice on how to mend the cause, where there is any. -/
def help : Cause → Option String
  | methodName .. => some "mark it `static` if it is a static method"
  | crowdedLine _ => some "put each constructor and method on its own line"
  | unclosedNamespace name => some ("close it with `\x7d///\\namespace " ++ spokenName name ++ "`")
  | qualifiedForward _ => some "forward declarations only work for classes that need no namespace"
  | unresolvedType name .. =>
    some ("declare the class in this file, or add `class " ++ name.name
      ++ ";` if it is wrapped elsewhere")
  | duplicateMember .. =>
    some "overloaded methods are not supported; give each method a distinct name"
  | ambiguousConstructor .. => some <|
    "constructor overloads are told apart by arity and the first letter of each argument type"
  | _ => none

/-- What is written at the place the cause is about. -/
def label : Cause → String
  | unterminatedComment => "comment starts here and never ends"
  | unterminatedString => "string starts here"
  | invalidInput _ => "not part of the interface language"
  | unexpectedToken .. => "unexpected token here"
  | unexpectedEnd _ => "expected more tokens"
  | namespaceName _ => "namespace declared here"
  | className _ => "class declared here"
  | methodName .. => "method declared here"
  | staticMethodName .. => "static method declared here"
  | constStaticMethod .. => "`const` on a static method"
  | crowdedLine _ => "second declaration on this line"
  | unclosedNamespace _ => "opened here"
  | unmatchedNamespaceEnd => "nothing to close here"
  | qualifiedForward _ => "qualified forward declaration"
  | danglingInclude _ => "include override here"
  | defaultArgument .. => "default value here"
  | duplicateClass .. => "redefined here"
  | unresolvedType .. => "type not found"
  | invalidWrapping _ _ fault => fault.reason
  | duplicateMember .. => "declared again here"
  | ambiguousConstructor .. => "collides with an earlier constructor"

/-- The earlier place a cause is also about, with what is written there. -/
def earlier : Cause → Option (String × Extent)
  | duplicateClass _ first => some ("first defined here", first)
  | duplicateMember _ _ first => some ("first declared here", first)
  | ambiguousConstructor _ _ first => some ("earlier constructor", first)
  | _ => none

/-- The symbol a cause is about, when it is about one. -/
def symbol : Cause → Option String
  | namespaceName name | className name => some name
  | unclosedNamespace name => some (spokenName name)
  | qualifiedForward path | duplicateClass path _ | unresolvedType path .. => some path.text
  | methodName owner name | staticMethodName owner name | constStaticMethod owner name
  | duplicateMember owner name _ | defaultArgument owner name => some s!"{owner}::{name}"
  | crowdedLine owner | ambiguousConstructor owner .. => some owner
  | invalidWrapping _ signature _ => some signature
  | danglingInclude path => some path
  | unterminatedComment | unterminatedString | invalidInput _ | unexpectedToken ..
  | unexpectedEnd _ | unmatchedNamespaceEnd => none

end Cause

/-- A cause, the line it is reported on and the text it is about. -/
structure Diagnostic where
  cause : Cause
  line : Nat
  extent : Extent
deriving DecidableEq, Repr, Inhabited

namespace Diagnostic

/-- A diagnostic about a span, reported on the line where the span starts. -/
def about (span : Span) (cause : Cause) : Diagnostic := ⟨cause, span.line, span.extent⟩

def kind (d : Diagnostic) : DiagnosticKind := d.cause.kind

def message (d : Diagnostic) : String := d.cause.message d.line

/-- The marked places: the one the diagnostic is about, then the earlier one if there is one. -/
def labels (d : Diagnostic) : List (String × Extent) :=
  (d.cause.label, d.extent) :: d.cause.earlier.toList

end Diagnostic

/-- A diagnostic without its places, for tools that only list messages. -/
structure DiagnosticRecord where
  kind : DiagnosticKind
  message : String
  line : Nat
  symbol : Option String
deriving DecidableEq, Repr, Inhabited

def Diagnostic.record (d : Diagnostic) : DiagnosticRecord :=
  ⟨d.kind, d.message, d.line, d.cause.symbol⟩

/-- What was found wrong with one file, in the order it was found. -/
structure Report where
  file : String
  diagnostics : List Diagnostic
deriving DecidableEq, Repr, Inhabited

namespace Report

/-- A report with nothing in it. -/
def empty (file : String) : Report := ⟨file, []⟩

def push (r : Report) (d : Diagnostic) : Report := { r with diagnostics := r.diagnostics ++ [d] }

def hasErrors (r : Report) : Bool := !r.diagnostics.isEmpty

def count (r : Report) : Nat := r.diagnostics.length

def firstKind? (r : Report) : Option DiagnosticKind := r.diagnostics.head?.map Diagnostic.kind

def records (r : Report) : List DiagnosticRecord := r.diagnostics.map Diagnostic.record

def message (r : Report) : String := s!"{r.count} error(s) in {r.file}"

end Report

end BindingIdl
