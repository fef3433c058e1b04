import BindingIdl.Span

/-!
# Tokens

The words of an interface file. A token carries its own text and the span it covers; the kinds
`blockComment` and `endOfFile` never come with text a parser could use.
-/

namespace BindingIdl

inductive TokenKind where
  | namespaceKeyword
  | classKeyword
  | staticKeyword
  | constKeyword
  /-- A closing brace followed on its line by the end marker `///\namespace`. -/
  | namespaceEnd
  /-- An override line `#include <path>`. -/
  | includeLine
  | blockComment
  | integer
  | decimal
  | quoted
  | identifier
  | openParen
  | closeParen
  | openBrace
  | closeBrace
  | less
  | greater
  | comma
  | semicolon
  | doubleColon
  | ampersand
  | star
  | equals
  /-- Any other single character; it is for the grammar to refuse it. -/
  | unknown
  | endOfFile
deriving DecidableEq, Repr, Inhabited

namespace TokenKind

/-- Kinds that are recognised and then dropped. -/
def isTrivia (kind : TokenKind) : Bool := kind = blockComment

/-- How the kind is shown to a reader: its spelling where it has only one, a placeholder
otherwise. -/
def describe : TokenKind → String
  | namespaceKeyword => "namespace"
  | classKeyword => "class"
  | staticKeyword => "static"
  | constKeyword => "const"
  | namespaceEnd => "\x7d///\\namespace"
  | includeLine => "#include"
  | blockComment => "<comment>"
  | integer => "<int>"
  | decimal => "<float>"
  | quoted => "<string>"
  | identifier => "<ident>"
  | openParen => "("
  | closeParen => ")"
  | openBrace => "\x7b"
  | closeBrace => "\x7d"
  | less => "<"
  | greater => ">"
  | comma => ","
  | semicolon => ";"
  | doubleColon => "::"
  | ampersand => "&"
  | star => "*"
  | equals => "="
  | unknown => "<unknown>"
  | endOfFile => "<eof>"

/-- The keyword that a whole identifier spells, if it spells one. -/
def keyword? : String → Option TokenKind
  | "namespace" => some namespaceKeyword
  | "class" => some classKeyword
  | "static" => some staticKeyword
  | "const" => some constKeyword
  | _ => none

end TokenKind

structure Token where
  kind : TokenKind
  text : String
  span : Span
deriving DecidableEq, Repr, Inhabited

end BindingIdl
