import BindingIdl.Toml.Quoted
import BindingIdl.Toml.Scalar

/-!
# Reading TOML documents

`Toml.document?` reads a text as one table. What is wrong with a text that cannot be read is not
told.

At most `nestingLimit` arrays and inline tables may stand inside each other, and a dotted key may
not have more parts than that either.
-/

namespace BindingIdl.Toml

/-- A reader takes characters from the front, or refuses them. -/
abbrev Reader := StateT (List Char) Option

namespace Reader

def refuse {α : Type} : Reader α := fun _ => none

/-- The character ahead; it is not taken. -/
def peek : Reader (Option Char) := do return (← get).head?

/-- Take the character ahead, which has to be this one. -/
def expect (c : Char) : Reader Unit := fun cs =>
  match cs with
  | d :: rest => if c = d then some ((), rest) else none
  | [] => none

/-- Take the character ahead if it is this one. -/
def accept (c : Char) : Reader Bool := fun cs =>
  match cs with
  | d :: rest => if c = d then some (true, rest) else some (false, cs)
  | [] => some (false, [])

/-- Take all characters of a class. -/
def takeWhile (p : Char → Bool) : Reader (List Char) := fun cs => some (cs.span p)

/-- Repeat a step as often as it has something to add; `ahead` bounds how often that can be. -/
def collectWithin {α : Type} (step : Reader (Option α)) : List Char → Reader (List α)
  | [] => do return (← step).toList
  | _ :: ahead => do
    match ← step with
    | none => return []
    | some a => return a :: (← collectWithin step ahead)

/-- Repeat a step, which takes a character whenever it adds something, until it adds nothing. -/
def collect {α : Type} (step : Reader (Option α)) : Reader (List α) := fun cs =>
  collectWithin step cs cs

end Reader

/-! ## Between the values -/

def blanks : Reader Unit := do
  let _ ← Reader.takeWhile fun c => c = ' ' || c = '\t'

/-- A comment, without the end of its line. -/
def comment : Reader Unit := do
  if ← Reader.accept '#' then
    let _ ← Reader.takeWhile isPlain

/-- The end of a line, unless the document is over. -/
def lineEnd : Reader Unit := fun cs =>
  match cs with
  | [] => some ((), [])
  | '\n' :: rest => some ((), rest)
  | '\r' :: '\n' :: rest => some ((), rest)
  | _ => none

/-- What may follow on a line that says something. -/
def lineRest : Reader Unit := do
  blanks
  comment
  lineEnd

/-- One stretch of blanks, line end or comment between the elements of an array. -/
def oneGap : Reader (Option Unit) := do
  match ← Reader.peek with
  | some '#' => comment; return some ()
  | some '\n' | some '\r' => lineEnd; return some ()
  | some ' ' | some '\t' => blanks; return some ()
  | _ => return none

/-- Blanks, line ends and comments. -/
def gap : Reader Unit := do
  let _ ← Reader.collect oneGap

/-! ## Keys -/

def nestingLimit : Nat := 79

def isBareKeyChar (c : Char) : Bool := c.isAlphanum || c = '_' || c = '-'

def simpleKey : Reader String := do
  if ← Reader.accept '"' then
    return String.ofList (← readBasic)
  else if ← Reader.accept '\'' then
    return String.ofList (← readLiteral)
  else
    let cs ← Reader.takeWhile isBareKeyChar
    if cs.isEmpty then Reader.refuse else return String.ofList cs

/-- A further part of a dotted key. -/
def nextKey : Reader (Option String) := do
  blanks
  if ← Reader.accept '.' then
    blanks
    return some (← simpleKey)
  else return none

/-- A key: the parts before its last dot, and the last part. -/
def key : Reader (List String × String) := do
  let first ← simpleKey
  let parts := first :: (← Reader.collect nextKey)
  match parts.getLast? with
  | some last =>
    if parts.length ≤ nestingLimit then return (parts.dropLast, last) else Reader.refuse
  | none => Reader.refuse

/-! ## Values -/

/-- A quoted value in any of its four forms. -/
def quoted : Reader Value := fun cs =>
  let found := match cs with
    | '"' :: '"' :: '"' :: rest => readLongBasic false (dropFirstLineEnd rest)
    | '\'' :: '\'' :: '\'' :: rest => readLongLiteral (dropFirstLineEnd rest)
    | '"' :: rest => readBasic rest
    | '\'' :: rest => readLiteral rest
    | _ => none
  found.map fun (content, rest) => (.string (String.ofList content), rest)

/-- An element of an array and the comma behind it; without a comma, the array has to end. -/
def nextElement (value : Reader Value) : Reader (Option Value) := do
  gap
  if (← Reader.peek) = some ']' then return none
  else
    let element ← value
    gap
    if !(← Reader.accept ',') then
      if (← Reader.peek) ≠ some ']' then Reader.refuse
    return some element

def array (value : Reader Value) : Reader Value := do
  Reader.expect '['
  let elements ← Reader.collect (nextElement value)
  gap
  Reader.expect ']'
  return .array elements

/-- A key and its value. -/
structure Setting where
  path : List String
  key : String
  value : Value

def setting (value : Reader Value) : Reader Setting := do
  let (path, key) ← key
  blanks
  Reader.expect '='
  blanks
  return ⟨path, key, ← value⟩

/-- A further setting of an inline table. -/
def nextSetting (value : Reader Value) : Reader (Option Setting) := do
  if ← Reader.accept ',' then
    blanks
    let s ← setting value
    blanks
    return some s
  else return none

def inlineSettings (value : Reader Value) : Reader (List Setting) := do
  if (← Reader.peek) = some '\x7d' then return []
  else
    let first ← setting value
    blanks
    return first :: (← Reader.collect (nextSetting value))

/-- Add a setting to the entries of an inline table. -/
def Entries.addSetting (entries : Entries) (s : Setting) : Option Entries :=
  entries.addValue s.path s.key s.value .header

def inlineTable (value : Reader Value) : Reader Value := do
  Reader.expect '\x7b'
  blanks
  let settings ← inlineSettings value
  Reader.expect '\x7d'
  match settings.foldlM Entries.addSetting [] with
  | some entries => return .table (Node.values entries)
  | none => Reader.refuse

/-- A value that holds no others. -/
def scalar : Reader Value := do
  match ← Reader.peek with
  | some '"' | some '\'' => quoted
  | _ => Value.readWord

/-- A value with at most so many arrays and inline tables inside each other. -/
def valueWithin : Nat → Reader Value
  | 0 => scalar
  | depth + 1 => do
    match ← Reader.peek with
    | some '[' => array (valueWithin depth)
    | some '\x7b' => inlineTable (valueWithin depth)
    | _ => scalar

def value : Reader Value := valueWithin nestingLimit

/-! ## Documents -/

/-- What has been read: the whole table, and the header whose table is open. -/
structure Progress where
  root : Entries
  header : List String

/-- A header, single or repeated. -/
def header (p : Progress) : Reader Progress := do
  Reader.expect '['
  let repeated ← Reader.accept '['
  blanks
  let (path, key) ← key
  blanks
  Reader.expect ']'
  if repeated then Reader.expect ']'
  lineRest
  match if repeated then p.root.openNext path key else p.root.openTable path key with
  | some root => return ⟨root, path ++ [key]⟩
  | none => Reader.refuse

/-- A setting on a line of its own. -/
def line (p : Progress) : Reader Progress := do
  let s ← setting value
  lineRest
  match p.root.addUnder p.header s.path s.key s.value with
  | some root => return { p with root }
  | none => Reader.refuse

/-- Read lines until the document is over; `ahead` bounds how many there can be. -/
def lines (p : Progress) : List Char → Reader Progress
  | [] => return p
  | _ :: ahead => do
    blanks
    match ← Reader.peek with
    | none => return p
    | some '[' => lines (← header p) ahead
    | some '#' | some '\n' | some '\r' => comment; lineEnd; lines p ahead
    | some _ => lines (← line p) ahead

/-- The table that a text says, or nothing if it is no TOML document. -/
def document? (text : String) : Option (List (String × Value)) :=
  let cs := match text.toList with
    | '\uFEFF' :: rest => rest
    | cs => cs
  match (lines ⟨[], []⟩ cs).run cs with
  | some (p, []) => some (Node.values p.root)
  | _ => none

end BindingIdl.Toml
