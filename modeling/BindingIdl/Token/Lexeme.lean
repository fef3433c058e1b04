import BindingIdl.Token

/-!
# What a text begins with

`Lexeme.ofHead c cs` decides what the characters `c :: cs` begin with, and how many of `cs` belong
to it. Each rule takes the longest stretch it can. Nothing is ever read past that stretch, and
every lexeme takes at least its first character, so reading a text lexeme by lexeme ends.

The three faults are a block comment without an end, a quoted text without an end on its line, and a
`#` that starts an include line it does not complete. A lone `#` is no fault: it is handed on as an
unknown character.
-/

namespace BindingIdl

/-- Why a text cannot be cut into tokens. -/
inductive LexicalFault where
  | unterminatedComment
  | unterminatedString
  | invalidInput
deriving DecidableEq, Repr, Inhabited

/-- What a lexeme is good for. -/
inductive LexemeClass where
  /-- Blanks, or a comment that runs to the end of its line. -/
  | gap
  | token (kind : TokenKind)
  | fault (cause : LexicalFault)
deriving DecidableEq, Repr, Inhabited

/-- A lexeme: its class, and how many characters it takes behind its first one. -/
structure Lexeme where
  role : LexemeClass
  more : Nat
deriving DecidableEq, Repr, Inhabited

namespace Lexeme

/-! ## Character classes

All of them are ASCII: every other character is `TokenKind.unknown`, alone. -/

/-- Blank, and not the end of the line. -/
def isInlineBlank (c : Char) : Bool := c = ' ' || c = '\t'

def isBlank (c : Char) : Bool := c = ' ' || c = '\t' || c = '\r' || c = '\n' || c = '\x0c'

def isWordStart (c : Char) : Bool := c.isAlpha || c = '_'

def isWordRest (c : Char) : Bool := c.isAlphanum || c = '_'

/-- Digits of a number behind its first one; underscores may separate them. -/
def isNumberRest (c : Char) : Bool := c.isDigit || c = '_'

/-! ## Runs -/

/-- How many leading characters are of a class. -/
def run (p : Char → Bool) (cs : List Char) : Nat := (cs.takeWhile p).length

/-- How many characters reach through the first `*/`. -/
def throughCommentEnd : List Char → Option Nat
  | '*' :: '/' :: _ => some 2
  | _ :: cs => (throughCommentEnd cs).map (· + 1)
  | [] => none

/-- How many characters reach through the closing quote. A backslash takes the meaning from the
character behind it, but the line must not end before the quote. -/
def throughQuote (escaped : Bool) : List Char → Option Nat
  | [] => none
  | c :: cs =>
    if c = '\n' then none
    else if escaped then (throughQuote false cs).map (· + 1)
    else if c = '"' then some 1
    else (throughQuote (c = '\\') cs).map (· + 1)

/-- What turns a closing brace into the end of a namespace. -/
def endMarker : List Char := "///\\namespace".toList

/-! ## One rule per first character -/

def word (c : Char) (cs : List Char) : Lexeme :=
  let taken := cs.takeWhile isWordRest
  ⟨.token ((TokenKind.keyword? (String.ofList (c :: taken))).getD .identifier), taken.length⟩

/-- Characters of an exponent, if a whole one is there: `e`, an optional sign, and digits. -/
def exponent : List Char → Nat
  | e :: cs =>
    let sign := if cs.head? = some '+' || cs.head? = some '-' then 1 else 0
    let digits := run Char.isDigit (cs.drop sign)
    if (e = 'e' || e = 'E') && digits > 0 then 1 + sign + digits else 0
  | [] => 0

/-- A number is decimal when a digit follows its point. -/
def number (cs : List Char) : Lexeme :=
  let whole := run isNumberRest cs
  match cs.drop whole with
  | '.' :: d :: rest =>
    if d.isDigit then
      let fraction := run isNumberRest rest
      ⟨.token .decimal, whole + 2 + fraction + exponent (rest.drop fraction)⟩
    else ⟨.token .integer, whole⟩
  | _ => ⟨.token .integer, whole⟩

def slash : List Char → Lexeme
  | '/' :: cs => ⟨.gap, 1 + run (· ≠ '\n') cs⟩
  | '*' :: cs =>
    match throughCommentEnd cs with
    | some n => ⟨.token .blockComment, 1 + n⟩
    | none => ⟨.fault .unterminatedComment, 1⟩
  | _ => ⟨.token .unknown, 0⟩

def quote (cs : List Char) : Lexeme :=
  match throughQuote false cs with
  | some n => ⟨.token .quoted, n⟩
  | none => ⟨.fault .unterminatedString, 0⟩

def brace (cs : List Char) : Lexeme :=
  let blanks := run isInlineBlank cs
  if endMarker.isPrefixOf (cs.drop blanks) then ⟨.token .namespaceEnd, blanks + endMarker.length⟩
  else ⟨.token .closeBrace, 0⟩

/-- An include line, once the word `include` has been seen with `before` characters up to its
end. -/
def includePath (before : Nat) (cs : List Char) : Lexeme :=
  let blanks := run isInlineBlank cs
  match cs.drop blanks with
  | '<' :: path =>
    let inside := run (fun c => c ≠ '>' && c ≠ '\n') path
    if (path.drop inside).head? = some '>' then ⟨.token .includeLine, before + blanks + inside + 2⟩
    else ⟨.fault .invalidInput, before + blanks + inside + 1⟩
  | _ => ⟨.fault .invalidInput, before + blanks⟩

def includeWord : List Char := "include".toList

def hash (cs : List Char) : Lexeme :=
  let blanks := run isInlineBlank cs
  if includeWord.isPrefixOf (cs.drop blanks) then
    includePath (blanks + includeWord.length) (cs.drop (blanks + includeWord.length))
  else if blanks = 0 then ⟨.token .unknown, 0⟩
  else ⟨.fault .invalidInput, blanks⟩

def colon : List Char → Lexeme
  | ':' :: _ => ⟨.token .doubleColon, 1⟩
  | _ => ⟨.token .unknown, 0⟩

/-- Characters that are a token by themselves, whatever follows. -/
def single : Char → TokenKind
  | '(' => .openParen
  | ')' => .closeParen
  | '\x7b' => .openBrace
  | '<' => .less
  | '>' => .greater
  | ',' => .comma
  | ';' => .semicolon
  | '&' => .ampersand
  | '*' => .star
  | '=' => .equals
  | _ => .unknown

/-- What `c :: cs` begins with. -/
def ofHead (c : Char) (cs : List Char) : Lexeme :=
  if isBlank c then ⟨.gap, run isBlank cs⟩
  else if isWordStart c then word c cs
  else if c.isDigit then number cs
  else if c = '/' then slash cs
  else if c = '"' then quote cs
  else if c = '\x7d' then brace cs
  else if c = '#' then hash cs
  else if c = ':' then colon cs
  else ⟨.token (single c), 0⟩

end Lexeme

end BindingIdl
