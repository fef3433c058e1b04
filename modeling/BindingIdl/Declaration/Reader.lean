import BindingIdl.Declaration
import BindingIdl.Diagnostic
import BindingIdl.Token

/-!
# Reading tokens

A `Parser` starts at a `Cursor` and answers with a value or the diagnostic that stopped it, with
the violations it reported on the way, and with the cursor it came to. A parser that stops stays
where it is: nothing is given back, and ids that were drawn stay drawn.

The end of the file may be stated by a token, and other tokens may stand behind that one. Where no
token is left the file ends too: `stop` is what is met then, as often as one looks.

`Parser.collect` repeats a step until the step itself says that the list is over. It runs on the
tokens ahead: a step that adds to the list takes at least one of them.
-/

namespace BindingIdl

/-- Where a parser stands. -/
structure Cursor where
  rest : List Token
  stop : Token
  nextId : NodeId
deriving DecidableEq, Repr, Inhabited

namespace Cursor

/-- The token ahead, or the end of the file. -/
def current (c : Cursor) : Token := c.rest.headD c.stop

def kind (c : Cursor) : TokenKind :=
  match c.rest with
  | [] => .endOfFile
  | t :: _ => t.kind

def atEnd (c : Cursor) : Bool := c.kind = .endOfFile

/-- The cursor behind the token ahead. -/
def advance (c : Cursor) : Cursor := { c with rest := c.rest.tail }

/-- What to say when the token ahead is not what is expected. -/
def unexpected (c : Cursor) (expected : Expectation) : Diagnostic :=
  .about c.current.span <|
    if c.atEnd then .unexpectedEnd expected
    else .unexpectedToken expected ("`" ++ c.current.text ++ "`")

end Cursor

/-- What a parser answers. -/
structure Parsed (α : Type) where
  outcome : Except Diagnostic α
  /-- Violations that did not stop the parser, in the order they were met. -/
  reported : List Diagnostic
  next : Cursor

def Parser (α : Type) : Type := Cursor → Parsed α

namespace Parser

variable {α β : Type}

instance : Monad Parser where
  pure a := fun c => ⟨.ok a, [], c⟩
  bind p f := fun c =>
    match p c with
    | ⟨.ok a, reported, next⟩ =>
      let answer := f a next
      { answer with reported := reported ++ answer.reported }
    | ⟨.error d, reported, next⟩ => ⟨.error d, reported, next⟩

theorem pure_apply (a : α) (c : Cursor) : (pure a : Parser α) c = ⟨.ok a, [], c⟩ := rfl

/-- Behind a parser that answers, the next one goes on, and its reports follow. -/
theorem bind_of_ok {p : Parser α} {c next : Cursor} {a : α} {reported : List Diagnostic}
    (f : α → Parser β) (h : p c = ⟨.ok a, reported, next⟩) :
    (p >>= f) c = { f a next with reported := reported ++ (f a next).reported } := by
  simp only [Bind.bind, h]

/-- Behind a parser that is stopped, nothing more is read. -/
theorem bind_of_error {p : Parser α} {c next : Cursor} {d : Diagnostic}
    {reported : List Diagnostic} (f : α → Parser β) (h : p c = ⟨.error d, reported, next⟩) :
    (p >>= f) c = ⟨.error d, reported, next⟩ := by
  simp only [Bind.bind, h]

/-- Stop with a diagnostic. -/
def fail (d : Diagnostic) : Parser α := fun c => ⟨.error d, [], c⟩

/-- Stop at a token that is not what is expected. -/
def refuse (expected : Expectation) : Parser α := fun c => ⟨.error (c.unexpected expected), [], c⟩

/-- Note a violation and go on. -/
def report (d : Diagnostic) : Parser Unit := fun c => ⟨.ok (), [d], c⟩

/-- Note a violation unless a condition holds. -/
def require (holds : Bool) (d : Diagnostic) : Parser Unit :=
  if holds then pure () else report d

/-- The cursor itself. -/
def cursor : Parser Cursor := fun c => ⟨.ok c, [], c⟩

def kind : Parser TokenKind := fun c => ⟨.ok c.kind, [], c⟩

/-- The span of the token ahead. -/
def span : Parser Span := fun c => ⟨.ok c.current.span, [], c⟩

/-- Take the token ahead. -/
def next : Parser Token := fun c => ⟨.ok c.current, [], c.advance⟩

/-- Take the token ahead if it is of a kind. -/
def accept (kind : TokenKind) : Parser (Option Token) := fun c =>
  if c.kind = kind then ⟨.ok (some c.current), [], c.advance⟩ else ⟨.ok none, [], c⟩

/-- Take the token ahead, which has to be of a kind. -/
def expect (kind : TokenKind) (expected : Expectation) : Parser Token := fun c =>
  if c.kind = kind then ⟨.ok c.current, [], c.advance⟩
  else ⟨.error (c.unexpected expected), [], c⟩

/-- An id that no other node has. The counter goes on without a bound, where one of 32 bits would
run out behind `2 ^ 32 - 1`. -/
def freshId : Parser NodeId := fun c => ⟨.ok c.nextId, [], { c with nextId := c.nextId + 1 }⟩

/-- Go on with fewer tokens. -/
def skip (f : List Token → List Token) : Parser Unit := fun c =>
  ⟨.ok (), [], { c with rest := f c.rest }⟩

/-- Turn what stops a parser into an answer. -/
def attempt (p : Parser α) : Parser (Except Diagnostic α) := fun c =>
  let answer := p c
  { answer with outcome := .ok answer.outcome }

/-- Repeat a step as often as it has something to add; `ahead` bounds how often that can be. -/
def collectWithin (step : Parser (Option α)) : List Token → Parser (List α)
  | [] => do return (← step).toList
  | _ :: ahead => do
    match ← step with
    | none => return []
    | some a => return a :: (← collectWithin step ahead)

/-- Repeat a step until it has nothing to add. -/
def collect (step : Parser (Option α)) : Parser (List α) := fun c => collectWithin step c.rest c

end Parser

end BindingIdl
