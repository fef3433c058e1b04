import BindingIdl.Declaration.Reader
import BindingIdl.Settings

/-!
# The grammar of interface files

One parser per construct, and `InterfaceFile.ofTokens`, which reads a whole file.

Violations of naming and layout rules are reported and reading goes on. A construct that cannot be
read is left at once: a member is given up to its `;`, an item up to the next token that can start
one, and the reading resumes there. Only the end of the file inside something open, and an end
marker with nothing open, stop the whole reading.
-/

namespace BindingIdl

/-! ## First letters -/

def startsWith (p : Char → Bool) (name : String) : Bool := name.toList.head?.any p

def startsLower (name : String) : Bool := startsWith Char.isLower name

def startsUpper (name : String) : Bool := startsWith Char.isUpper name

def startsWithLetter (name : String) : Bool := startsWith Char.isAlpha name

/-! ## Resuming -/

/-- Drop tokens through the next `;`, but nothing from the end of the class body or of the file
on. -/
def skipMember : List Token → List Token
  | [] => []
  | t :: ts =>
    match t.kind with
    | .endOfFile | .namespaceEnd | .closeBrace => t :: ts
    | .semicolon => ts
    | _ => skipMember ts

/-- Drop tokens up to the next one that can start an item, or that closes a namespace, and never
the end of the file. Braces opened on the way are followed to their partners, and a `;` behind the
last of these goes with it. -/
def skipItem (depth : Nat) : List Token → List Token
  | [] => []
  | t :: ts =>
    match t.kind, depth with
    | .endOfFile, _ | .namespaceEnd, _ => t :: ts
    | .namespaceKeyword, 0 | .classKeyword, 0 | .includeLine, 0 | .closeBrace, 0 => t :: ts
    | .openBrace, _ => skipItem (depth + 1) ts
    | .closeBrace, 1 =>
      match ts with
      | [] => []
      | s :: rest => if s.kind = .semicolon then skipItem 0 rest else skipItem 0 (s :: rest)
    | .closeBrace, depth + 1 => skipItem depth ts
    | _, _ => skipItem depth ts

/-! ## Names and types -/

/-- One `::` and the name behind it, if a `::` is ahead. -/
def nextSegment (expected : Expectation) : Parser (Option Token) := do
  match ← Parser.accept .doubleColon with
  | none => return none
  | some _ => return some (← Parser.expect .identifier expected)

/-- The name spelled by a first token and those behind it. -/
def nameOf (first : Token) (more : List Token) : QualifiedName :=
  match more.getLast? with
  | none => .bare first.text
  | some last => ⟨first.text :: more.dropLast.map (·.text), last.text⟩

/-- A name with its qualification, and the span of its last segment. -/
def qualifiedName (expected : Expectation) : Parser (QualifiedName × Span) := do
  let first ← Parser.expect .identifier expected
  let more ← Parser.collect (nextSegment expected)
  return (nameOf first more, (more.getLastD first).span)

/-- The last segment of the only names that take an argument: those of shared pointers. -/
def pointerName : String := "shared_ptr"

/-- A type read up to some point: the name, what wraps it, and the span of the last token. -/
structure TypeHead where
  name : QualifiedName
  wrapper : Option QualifiedName
  last : Span

/-- A name, or a shared pointer to one. -/
def typeHead : Parser TypeHead := do
  let (name, last) ← qualifiedName .typeName
  if (← Parser.kind) ≠ .less then
    return ⟨name, none, last⟩
  else if name.name ≠ pointerName then
    Parser.refuse .plainType
  else
    let _ ← Parser.next
    let (inner, _) ← qualifiedName .pointee
    let close ← Parser.expect .greater .pointeeEnd
    return ⟨inner, some name, close.span⟩

/-- A mark of indirection with the token that makes it. -/
def indirection : Parser (Indirection × Option Token) := do
  match ← Parser.accept .ampersand with
  | some mark => return (.reference, some mark)
  | none =>
    match ← Parser.accept .star with
    | some mark => return (.pointer, some mark)
    | none => return (.value, none)

def typeExpr : Parser TypeExpr := do
  let start ← Parser.span
  let const? ← Parser.accept .constKeyword
  let head ← typeHead
  let (passing, mark) ← indirection
  let id ← Parser.freshId
  return ⟨id, const?.isSome, head.name, head.wrapper, passing,
    start.cover (mark.elim head.last (·.span))⟩

/-! ## Members -/

/-- A parameter of member `member` of class `owner`. -/
def parameter (owner member : String) : Parser ParameterDecl := do
  let type ← typeExpr
  let name ← Parser.expect .identifier .parameterName
  if (← Parser.kind) = .equals then
    Parser.fail (.about (← Parser.span) (.defaultArgument owner member))
  else
    let id ← Parser.freshId
    return ⟨id, name.text, type⟩

/-- A parameter and the comma behind it, unless the list is over. -/
def nextParameter (owner member : String) : Parser (Option ParameterDecl) := do
  if (← Parser.kind) = .closeParen then
    return none
  else
    let param ← parameter owner member
    if (← Parser.kind) ≠ .closeParen then
      let _ ← Parser.expect .comma .parameterSeparator
    return some param

/-- Parameters in their parentheses. A comma may stand behind the last one. -/
def parameters (owner member : String) : Parser (List ParameterDecl) := do
  let _ ← Parser.expect .openParen .parameterList
  let params ← Parser.collect (nextParameter owner member)
  let _ ← Parser.next
  return params

/-- A member, and the line on which its `;` stands. -/
structure ReadMember where
  decl : MemberDecl
  endLine : Nat
deriving DecidableEq, Repr, Inhabited

/-- Whether a constructor of `owner` is ahead: its name and an opening parenthesis. -/
def Cursor.atConstructor (c : Cursor) (owner : String) : Bool :=
  match c.rest with
  | name :: paren :: _ =>
    name.kind = .identifier && name.text = owner && paren.kind = .openParen
  | _ => false

/-- A constructor that starts at `start`, where its name is ahead. -/
def constructorDecl (owner : String) (start : Span) : Parser ReadMember := do
  let _ ← Parser.next
  let params ← parameters owner owner
  let semi ← Parser.expect .semicolon .constructorEnd
  let id ← Parser.freshId
  return ⟨.constructor ⟨id, params, start.cover semi.span⟩, semi.span.line⟩

/-- Methods start with a lowercase letter, static ones with any letter. -/
def requireMethodName (owner : String) (isStatic : Bool) (name : Token) : Parser Unit :=
  if isStatic then
    Parser.require (startsWithLetter name.text)
      (.about name.span (.staticMethodName owner name.text))
  else
    Parser.require (startsLower name.text) (.about name.span (.methodName owner name.text))

/-- A `const` behind the parameters, which a static method must not have. -/
def constMark (owner : String) (isStatic : Bool) (name : String) : Parser Bool := do
  match ← Parser.accept .constKeyword with
  | none => return false
  | some mark =>
    Parser.require (!isStatic) (.about mark.span (.constStaticMethod owner name))
    return true

/-- A method that starts at `start`, where its return type is ahead. -/
def methodDecl (owner : String) (start : Span) (isStatic : Bool) : Parser ReadMember := do
  let returns ← typeExpr
  let name ← Parser.expect .identifier .methodName
  requireMethodName owner isStatic name
  let params ← parameters owner name.text
  let isConst ← constMark owner isStatic name.text
  let semi ← Parser.expect .semicolon .methodEnd
  let id ← Parser.freshId
  return ⟨.method ⟨id, name.text, isStatic, isConst, params, returns, start.cover semi.span⟩,
    semi.span.line⟩

def member (owner : String) : Parser ReadMember := do
  let start ← Parser.span
  match ← Parser.accept .staticKeyword with
  | some _ => methodDecl owner start true
  | none =>
    if (← Parser.cursor).atConstructor owner then constructorDecl owner start
    else methodDecl owner start false

/-! ## Classes -/

/-- A member, or nothing in its place if it could not be read, unless the body is over. -/
def nextMember (owner : String) : Parser (Option (Option ReadMember)) := do
  match ← Parser.kind with
  | .closeBrace => return none
  -- no member can start with these, and to read on would leave the class
  | .endOfFile | .namespaceEnd => Parser.refuse (.classClosing owner)
  | _ =>
    match ← Parser.attempt (member owner) with
    | .ok read => return some (some read)
    | .error d =>
      Parser.report d
      Parser.skip skipMember
      return some none

/-- Members that start on the line where the one before them ended. -/
def crowded : List ReadMember → List MemberDecl
  | first :: second :: rest =>
    if second.decl.span.line = first.endLine then second.decl :: crowded (second :: rest)
    else crowded (second :: rest)
  | _ => []

def reportAll (ds : List Diagnostic) : Parser Unit := ds.forM Parser.report

/-- The body of class `name` and what closes it. -/
def classBody (settings : GrammarSettings) (start : Span) (name : String)
    (override : Option IncludeOverride) : Parser ClassDecl := do
  let opening ← Parser.expect .openBrace .classBody
  let read ← Parser.collect (nextMember name)
  let closing ← Parser.next
  let members := read.filterMap id
  match ← Parser.accept .semicolon with
  | some _ => pure ()
  | none => Parser.report ((← Parser.cursor).unexpected (.classTerminator name))
  -- a class on a single line may hold more than one member
  if settings.oneDeclarationPerLine && opening.span.line ≠ closing.span.line then
    reportAll ((crowded members).map fun decl => .about decl.span (.crowdedLine name))
  let id ← Parser.freshId
  return ⟨id, name, override, members.map (·.decl), start.cover closing.span⟩

/-- An include line that nothing it could belong to follows. -/
def reportDangling (override : IncludeOverride) : Parser Unit :=
  Parser.report (.about override.span (.danglingInclude override.path))

/-- A forward declaration with a qualified name; it is read to its end and declares nothing. -/
def qualifiedForward (start : Span) (first : Token) : Parser Unit := do
  let more ← Parser.collect (nextSegment .className)
  let here ← Parser.span
  let _ ← Parser.expect .semicolon .forwardEnd
  Parser.report ⟨.qualifiedForward (nameOf first more), start.line, (start.cover here).extent⟩

/-- A class or a forward declaration, where the keyword is ahead. -/
def classItem (settings : GrammarSettings) (override : Option IncludeOverride) :
    Parser (Option Item) := do
  let start := (← Parser.next).span
  let name ← Parser.expect .identifier .className
  if (← Parser.kind) = .doubleColon then
    qualifiedForward start name
    return none
  else
    Parser.require (startsUpper name.text) (.about name.span (.className name.text))
    match ← Parser.accept .semicolon with
    | some semi =>
      override.forM reportDangling
      let id ← Parser.freshId
      return some (.forward ⟨id, name.text, start.cover semi.span⟩)
    | none => return some (.definition (← classBody settings start name.text override))

/-! ## Namespaces -/

/-- The name behind an end marker; it has to be on the marker's line. -/
def closingName (marker : Token) : Parser (Option String) := do
  if marker.kind = .namespaceEnd && (← Parser.span).line = marker.span.line then
    return (← Parser.accept .identifier).map (·.text)
  else
    return none

/-- A namespace around `body`, where the keyword is ahead. -/
def namespaceItem (body : Parser (List Item)) (override : Option IncludeOverride) :
    Parser Item := do
  let start := (← Parser.next).span
  let name ← Parser.accept .identifier
  name.forM fun t => Parser.require (startsLower t.text) (.about t.span (.namespaceName t.text))
  let _ ← Parser.expect .openBrace .namespaceBody
  let items ← body
  if (← Parser.cursor).atEnd then
    Parser.fail (.about start (.unclosedNamespace (name.map (·.text))))
  else
    let closing ← Parser.next
    let closeName ← closingName closing
    let id ← Parser.freshId
    return .space ⟨id, name.map (·.text), override, closeName, start.cover closing.span⟩ items

/-! ## Items -/

def includeOverride : Parser (Option IncludeOverride) := do
  return (← Parser.accept .includeLine).map fun t => ⟨IncludeOverride.pathOf t.text, t.span⟩

/-- An item, or nothing if what was read declares nothing. -/
def item (settings : GrammarSettings) (body : Parser (List Item)) : Parser (Option Item) := do
  let override ← includeOverride
  match ← Parser.kind with
  | .namespaceKeyword => return some (← namespaceItem body override)
  | .classKeyword => classItem settings override
  | _ =>
    -- an include line is an item's, so alone it is read over, and anything else is refused
    match override with
    | some dangling =>
      reportDangling dangling
      return none
    | none => Parser.refuse .item

/-- An item, or nothing in its place, unless the list is over. Inside a namespace any closing
token ends it; outside there is nothing to close. -/
def nextItem (settings : GrammarSettings) (nested : Bool) (body : Parser (List Item)) :
    Parser (Option (Option Item)) := do
  match ← Parser.kind with
  | .endOfFile => return none
  | .namespaceEnd | .closeBrace =>
    if nested then return none else Parser.fail (.about (← Parser.span) .unmatchedNamespaceEnd)
  | _ =>
    match ← Parser.attempt (item settings body) with
    | .ok read => return some read
    | .error d =>
      -- at the end of the file there is nothing left to go on with
      if (← Parser.cursor).atEnd then
        Parser.fail d
      else
        Parser.report d
        Parser.skip (skipItem 0)
        return some none

/-- The items of a file or of a namespace; `ahead` bounds how deep namespaces can go. -/
def itemsWithin (settings : GrammarSettings) (nested : Bool) : List Token → Parser (List Item)
  | [] => return []
  | _ :: ahead => do
    let read ← Parser.collect (nextItem settings nested (itemsWithin settings true ahead))
    return read.filterMap id

namespace InterfaceFile

/-- The end of a text of `size` bytes, for a list of tokens that does not state it: on the line of
the last token. -/
def endToken (size : Nat) (tokens : List Token) : Token :=
  ⟨.endOfFile, "", ⟨size, size, (tokens.getLast?.map (·.span.line)).getD 1⟩⟩

/-- The cursor before the first token. -/
def beginning (size : Nat) (tokens : List Token) : Cursor := ⟨tokens, endToken size tokens, 0⟩

/-- Read a file of `size` bytes from its tokens. -/
def ofTokens (settings : GrammarSettings) (size : Nat) (tokens : List Token) :
    Except (List Diagnostic) InterfaceFile :=
  let start := beginning size tokens
  let answer := itemsWithin settings false start.rest start
  match answer.outcome, answer.reported with
  | .ok items, [] => .ok ⟨items⟩
  | .ok _, reported => .error reported
  | .error d, reported => .error (reported ++ [d])

end InterfaceFile

end BindingIdl
