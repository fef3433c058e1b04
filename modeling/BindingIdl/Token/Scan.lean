import BindingIdl.Token.Lexeme

/-!
# Cutting a text into tokens

`Scan.ofText` walks over the text once. At the beginning of each lexeme it asks `Lexeme.ofHead`
what stands there, and passes over as many characters as the lexeme takes; the walk is by
recursion on the characters, with `covered` counting those of the current lexeme that are still
ahead. The first fault ends the scan, and the tokens before it are kept.
-/

namespace BindingIdl

/-- A lexical fault at the text it covers. -/
structure LexicalError where
  cause : LexicalFault
  text : String
  span : Span
deriving DecidableEq, Repr, Inhabited

/-- The tokens found, and what stopped the reading short of the end, if anything did. -/
structure Scan where
  tokens : List Token
  fault : Option LexicalError
deriving DecidableEq, Repr, Inhabited

namespace Scan

def cons (t : Token) (s : Scan) : Scan := { s with tokens := t :: s.tokens }

/-- Scan from position `p`, where the next `covered` characters belong to a lexeme already seen. -/
def walk : Nat → Position → List Char → Scan
  | _, _, [] => ⟨[], none⟩
  | covered + 1, p, c :: cs => walk covered (p.after c) cs
  | 0, p, c :: cs =>
    let lexeme := Lexeme.ofHead c cs
    let taken := c :: cs.take lexeme.more
    match lexeme.role with
    | .gap => walk lexeme.more (p.after c) cs
    | .token kind =>
      if kind.isTrivia then walk lexeme.more (p.after c) cs
      else cons ⟨kind, String.ofList taken, p.spanOf taken⟩ (walk lexeme.more (p.after c) cs)
    | .fault cause => ⟨[], some ⟨cause, String.ofList taken, p.spanOf taken⟩⟩

/-- Passing over a lexeme is the same as scanning what follows it. -/
theorem walk_covered (n : Nat) (p : Position) (cs : List Char) :
    walk n p cs = walk 0 (p.afterAll (cs.take n)) (cs.drop n) := by
  induction cs generalizing n p with
  | nil => cases n <;> simp [walk]
  | cons c cs ih =>
    cases n with
    | zero => simp
    | succ n => simp [walk, ih n]

/-- The tokens of a text, without its comments and blanks. -/
def ofText (text : String) : Scan := walk 0 .origin text.toList

end Scan

namespace Token

/-- The token that stands behind the last character of a text. -/
def endOf (text : String) : Token :=
  let p := Position.origin.afterAll text.toList
  ⟨.endOfFile, "", ⟨p.offset, p.offset, p.line⟩⟩

/-- The whole text as tokens, closed by the end of the file. -/
def ofText (text : String) : Except LexicalError (List Token) :=
  let scan := Scan.ofText text
  match scan.fault with
  | some fault => .error fault
  | none => .ok (scan.tokens ++ [endOf text])

end Token

end BindingIdl
