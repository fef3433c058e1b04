/-!
# Places in a source text

Offsets, lengths and columns are counted in UTF-8 bytes and lines from one. A `Span` is the
stretch of text a construct covers together with the line it starts on; an `Extent` is the stretch
alone, as a diagnostic's label shows it. `Position` is where a reader stands, and `Position.after`
moves it over one character.

`Span.cover` keeps the line of the operand that starts first, so the line of a covering span is
the line it starts on.
-/

namespace BindingIdl

/-- A stretch of text: where it begins and how many bytes it holds. -/
structure Extent where
  offset : Nat
  length : Nat
deriving DecidableEq, Repr, Inhabited

/-- The bytes from `start` up to `stop`, starting on line `line`. -/
structure Span where
  start : Nat
  stop : Nat
  line : Nat
deriving DecidableEq, Repr, Inhabited

namespace Span

/-- Number of bytes covered; a span that ends before it starts covers none. -/
def length (s : Span) : Nat := s.stop - s.start

def isEmpty (s : Span) : Bool := s.length = 0

def extent (s : Span) : Extent := ⟨s.start, s.length⟩

/-- The smallest span that holds both, on the line of the one that starts first. -/
def cover (s t : Span) : Span where
  start := min s.start t.start
  stop := max s.stop t.stop
  line := if s.start ≤ t.start then s.line else t.line

theorem cover_self (s : Span) : s.cover s = s := by
  simp [cover]

end Span

/-- Where a reader of the text stands: bytes behind it, and the line it is on. -/
structure Position where
  offset : Nat
  line : Nat
deriving DecidableEq, Repr

namespace Position

/-- The beginning of a text. -/
def origin : Position := ⟨0, 1⟩

instance : Inhabited Position := ⟨origin⟩

/-- The position behind one more character. -/
def after (p : Position) (c : Char) : Position where
  offset := p.offset + c.utf8Size
  line := if c = '\n' then p.line + 1 else p.line

/-- The position behind all of `cs`. -/
def afterAll (p : Position) (cs : List Char) : Position := cs.foldl after p

@[simp] theorem afterAll_nil (p : Position) : p.afterAll [] = p := rfl

@[simp] theorem afterAll_cons (p : Position) (c : Char) (cs : List Char) :
    p.afterAll (c :: cs) = (p.after c).afterAll cs := rfl

@[simp] theorem afterAll_append (p : Position) (cs ds : List Char) :
    p.afterAll (cs ++ ds) = (p.afterAll cs).afterAll ds := by
  simp [afterAll]

/-- The span from here over `cs`. -/
def spanOf (p : Position) (cs : List Char) : Span where
  start := p.offset
  stop := (p.afterAll cs).offset
  line := p.line

end Position

end BindingIdl
