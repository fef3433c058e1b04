/-!
# Quoted texts in TOML

Four forms: with escapes or without, on one line or over several. Each reader starts behind the
opening quotes and answers with the content and what follows the closing ones. In the long forms,
one or two quotes may stand right before the closing three.
-/

namespace BindingIdl.Toml

/-- Characters that may stand for themselves: no control characters but the tabulator. -/
def isPlain (c : Char) : Bool := c = '\t' || (0x20 ≤ c.toNat && c.toNat ≠ 0x7F)

/-- What a backslash and one letter stand for. -/
def simpleEscape? : Char → Option Char
  | 'b' => some '\x08'
  | 't' => some '\t'
  | 'n' => some '\n'
  | 'f' => some '\x0c'
  | 'r' => some '\r'
  | '"' => some '"'
  | '\\' => some '\\'
  | _ => none

def hexValue? (c : Char) : Option Nat :=
  if c.isDigit then some (c.toNat - '0'.toNat)
  else if 'a' ≤ c ∧ c ≤ 'f' then some (c.toNat - 'a'.toNat + 10)
  else if 'A' ≤ c ∧ c ≤ 'F' then some (c.toNat - 'A'.toNat + 10)
  else none

/-- The character with a number written in hexadecimal digits, if there is one. -/
def charOfHex? (digits : List Char) : Option Char := do
  let n ← digits.foldlM (fun n c => (hexValue? c).map (16 * n + ·)) 0
  if n.isValidChar then some (Char.ofNat n) else none

/-- A character of content in front of a content that has been read. -/
def withChar (c : Char) : List Char × List Char → List Char × List Char
  | (content, rest) => (c :: content, rest)

/-- A text with escapes, up to its quote. -/
def readBasic : List Char → Option (List Char × List Char)
  | [] => none
  | '"' :: rest => some ([], rest)
  | '\\' :: 'u' :: a :: b :: c :: d :: rest => do
    let char ← charOfHex? [a, b, c, d]
    return withChar char (← readBasic rest)
  | '\\' :: 'U' :: a :: b :: c :: d :: e :: f :: g :: h :: rest => do
    let char ← charOfHex? [a, b, c, d, e, f, g, h]
    return withChar char (← readBasic rest)
  | '\\' :: letter :: rest => do
    let char ← simpleEscape? letter
    return withChar char (← readBasic rest)
  | c :: rest => if isPlain c && c ≠ '\\' then (readBasic rest).map (withChar c) else none

/-- A text without escapes, up to its quote. -/
def readLiteral : List Char → Option (List Char × List Char)
  | [] => none
  | '\'' :: rest => some ([], rest)
  | c :: rest => if isPlain c then (readLiteral rest).map (withChar c) else none

/-- Whether blanks and the end of the line come next. -/
def atBlankEnd (cs : List Char) : Bool :=
  match cs.dropWhile fun c => c = ' ' || c = '\t' with
  | '\n' :: _ => true
  | '\r' :: '\n' :: _ => true
  | _ => false

/-- A long text with escapes, up to its three quotes. A backslash at the end of a line takes with
it all blanks and line ends up to the next character; `joining` holds while these are passed
over. -/
def readLongBasic (joining : Bool) : List Char → Option (List Char × List Char)
  | [] => none
  | '"' :: '"' :: '"' :: '"' :: '"' :: rest => some (['"', '"'], rest)
  | '"' :: '"' :: '"' :: '"' :: rest => some (['"'], rest)
  | '"' :: '"' :: '"' :: rest => some ([], rest)
  | '\\' :: 'u' :: a :: b :: c :: d :: rest => do
    let char ← charOfHex? [a, b, c, d]
    return withChar char (← readLongBasic false rest)
  | '\\' :: 'U' :: a :: b :: c :: d :: e :: f :: g :: h :: rest => do
    let char ← charOfHex? [a, b, c, d, e, f, g, h]
    return withChar char (← readLongBasic false rest)
  | '\\' :: letter :: rest =>
    if atBlankEnd (letter :: rest) then readLongBasic true (letter :: rest)
    else do
      let char ← simpleEscape? letter
      return withChar char (← readLongBasic false rest)
  | '\r' :: '\n' :: rest =>
    if joining then readLongBasic true rest
    else (readLongBasic false rest).map (withChar '\n')
  | c :: rest =>
    if joining && (c = ' ' || c = '\t' || c = '\n') then readLongBasic true rest
    else if (isPlain c && c ≠ '\\') || c = '\n' then (readLongBasic false rest).map (withChar c)
    else none

/-- A long text without escapes, up to its three quotes. -/
def readLongLiteral : List Char → Option (List Char × List Char)
  | [] => none
  | '\'' :: '\'' :: '\'' :: '\'' :: '\'' :: rest => some (['\'', '\''], rest)
  | '\'' :: '\'' :: '\'' :: '\'' :: rest => some (['\''], rest)
  | '\'' :: '\'' :: '\'' :: rest => some ([], rest)
  | '\r' :: '\n' :: rest => (readLongLiteral rest).map (withChar '\n')
  | c :: rest =>
    if isPlain c || c = '\n' then (readLongLiteral rest).map (withChar c) else none

/-- A line end right behind the opening quotes of a long text is no part of it. -/
def dropFirstLineEnd : List Char → List Char
  | '\n' :: rest => rest
  | '\r' :: '\n' :: rest => rest
  | cs => cs

end BindingIdl.Toml
