import BindingIdl.Compilation

/-!
# The same text further on

A text that stands behind another one has its places further on: every offset by the bytes in front,
every line by the line ends in front, and the nodes of its tree have larger ids. `Shift` is that
distance, and each type with places or ids in it has a `shift`. Lengths do not change.

Two things are used of it later. Places that are compared are compared as before
(`Span.line_shift`, `Span.cover_shift`), so a reader makes the same choices; and a shift by nothing
is the identity (`Item.shiftAll_zero`, `Diagnostic.shift_zero`), so that what is shown of a file
further on holds of the file where it is.
-/

namespace BindingIdl

/-- How far on something stands. -/
structure Shift where
  bytes : Nat
  lines : Nat
  ids : Nat
deriving DecidableEq, Repr

instance : Zero Shift := ⟨⟨0, 0, 0⟩⟩

@[simp] theorem Shift.ids_zero : (0 : Shift).ids = 0 := rfl

variable (s : Shift)

/-! ## Places -/

/-- A place further on, by bytes and by lines. -/
def Position.shift (p : Position) : Position := ⟨p.offset + s.bytes, p.line + s.lines⟩

/-- An extent keeps its length. -/
def Extent.shift (e : Extent) : Extent := { e with offset := e.offset + s.bytes }

namespace Span

/-- Both ends and the line of a span move. -/
def shift (span : Span) : Span := ⟨span.start + s.bytes, span.stop + s.bytes, span.line + s.lines⟩

/-- The length of a span is not changed by where it stands. -/
@[simp] theorem extent_shift (span : Span) : (span.shift s).extent = span.extent.shift s := by
  simp only [extent, shift, length, Extent.shift, Extent.mk.injEq, true_and]
  omega

@[simp] theorem line_shift (span : Span) : (span.shift s).line = span.line + s.lines := rfl

/-- A cover takes the earlier start with its line, and which one is earlier stays. -/
@[simp] theorem cover_shift (span t : Span) :
    (span.shift s).cover (t.shift s) = (span.cover t).shift s := by
  simp only [cover, shift, Nat.add_le_add_iff_right, mk.injEq]
  refine ⟨by omega, by omega, ?_⟩
  split <;> rfl

@[simp] theorem shift_zero (span : Span) : span.shift 0 = span := rfl

end Span

namespace Position

/-- A reader who starts further on stays so. -/
theorem afterAll_shift (p : Position) (cs : List Char) :
    (p.shift s).afterAll cs = (p.afterAll cs).shift s := by
  induction cs generalizing p with
  | nil => rfl
  | cons c cs ih =>
    have hone : (p.shift s).after c = (p.after c).shift s := by
      simp only [after, shift, mk.injEq]
      refine ⟨by omega, ?_⟩
      split <;> omega
    rw [afterAll_cons, hone, ih, afterAll_cons]

/-- Characters take up the same room wherever they begin. -/
theorem spanOf_shift (p : Position) (cs : List Char) :
    (p.shift s).spanOf cs = (p.spanOf cs).shift s := by
  simp only [spanOf, afterAll_shift]
  rfl

end Position

/-! ## Tokens -/

/-- A token keeps its kind and its text. -/
def Token.shift (t : Token) : Token := { t with span := t.span.shift s }

@[simp] theorem Token.kind_shift (t : Token) : (t.shift s).kind = t.kind := rfl

@[simp] theorem Token.text_shift (t : Token) : (t.shift s).text = t.text := rfl

@[simp] theorem Token.span_shift (t : Token) : (t.shift s).span = t.span.shift s := rfl

@[simp] theorem Token.shift_zero (t : Token) : t.shift 0 = t := rfl

/-- What a scanner complains about moves with its text. -/
def LexicalError.shift (e : LexicalError) : LexicalError := { e with span := e.span.shift s }

/-! ## Trees -/

/-- The path is as written, only its place is another one. -/
def IncludeOverride.shift (o : IncludeOverride) : IncludeOverride :=
  { o with span := o.span.shift s }

/-- A type gets a later id and a later place. -/
def TypeExpr.shift (type : TypeExpr) : TypeExpr :=
  { type with id := type.id + s.ids, span := type.span.shift s }

/-- A parameter has an id of its own and the places of its type. -/
def ParameterDecl.shift (param : ParameterDecl) : ParameterDecl :=
  { param with id := param.id + s.ids, type := param.type.shift s }

namespace MemberDecl

/-- Everything in a member is further on: its id, its span and its signature. -/
def shift : MemberDecl → MemberDecl
  | constructor decl => .constructor
    { decl with
      id := decl.id + s.ids
      params := decl.params.map (·.shift s)
      span := decl.span.shift s }
  | method decl => .method
    { decl with
      id := decl.id + s.ids
      params := decl.params.map (·.shift s)
      returns := decl.returns.shift s
      span := decl.span.shift s }

@[simp] theorem span_shift (m : MemberDecl) : (m.shift s).span = m.span.shift s := by
  cases m <;> rfl

end MemberDecl

/-- A class moves with all of its members and its include line. -/
def ClassDecl.shift (decl : ClassDecl) : ClassDecl :=
  { decl with
    id := decl.id + s.ids
    override := decl.override.map (·.shift s)
    members := decl.members.map (·.shift s)
    span := decl.span.shift s }

/-- A forward declaration has an id and a span. -/
def ForwardDecl.shift (decl : ForwardDecl) : ForwardDecl :=
  { decl with id := decl.id + s.ids, span := decl.span.shift s }

/-- The names at both ends of a namespace stay. -/
def NamespaceHead.shift (head : NamespaceHead) : NamespaceHead :=
  { head with
    id := head.id + s.ids
    override := head.override.map (·.shift s)
    span := head.span.shift s }

mutual

/-- An item further on. -/
def Item.shift : Item → Item
  | .space head items => .space (head.shift s) (Item.shiftAll items)
  | .definition decl => .definition (decl.shift s)
  | .forward decl => .forward (decl.shift s)

/-- All items of a list move by the same distance, at any depth. -/
def Item.shiftAll : List Item → List Item
  | [] => []
  | item :: rest => item.shift :: Item.shiftAll rest

end

/-- The file as it is read behind another text. -/
def InterfaceFile.shift (file : InterfaceFile) : InterfaceFile := ⟨Item.shiftAll s file.items⟩

/-- As the recursion goes through the list, so does `List.map`. -/
theorem Item.shiftAll_eq_map (items : List Item) :
    Item.shiftAll s items = items.map (·.shift s) := by
  induction items with
  | nil => rfl
  | cons item rest ih => rw [Item.shiftAll, ih, List.map_cons]

@[simp] theorem IncludeOverride.shift_zero (o : IncludeOverride) : o.shift 0 = o := rfl

@[simp] theorem TypeExpr.shift_zero (type : TypeExpr) : type.shift 0 = type := rfl

@[simp] theorem ParameterDecl.shift_zero (param : ParameterDecl) : param.shift 0 = param := rfl

@[simp] theorem MemberDecl.shift_zero (m : MemberDecl) : m.shift 0 = m := by
  cases m <;> simp [shift]

@[simp] theorem ClassDecl.shift_zero (decl : ClassDecl) : decl.shift 0 = decl := by
  simp [shift]

@[simp] theorem ForwardDecl.shift_zero (decl : ForwardDecl) : decl.shift 0 = decl := rfl

@[simp] theorem NamespaceHead.shift_zero (head : NamespaceHead) : head.shift 0 = head := by
  simp [shift]

@[simp] theorem Item.shiftAll_zero (items : List Item) : Item.shiftAll 0 items = items := by
  induction items using Item.induction with
  | nil => rfl
  | space head items rest ih ihrest => simp [shiftAll, shift, ih, ihrest]
  | definition decl rest ih => simp [shiftAll, shift, ih]
  | forward decl rest ih => simp [shiftAll, shift, ih]

@[simp] theorem Item.shift_zero (item : Item) : item.shift 0 = item :=
  (List.cons.inj (Item.shiftAll_zero [item])).1

/-! ## Diagnostics -/

/-- Of a cause, the earlier place it is also about. -/
def Cause.shift : Cause → Cause
  | duplicateClass path first => .duplicateClass path (first.shift s)
  | duplicateMember owner name first => .duplicateMember owner name (first.shift s)
  | ambiguousConstructor owner key first => .ambiguousConstructor owner key (first.shift s)
  | cause => cause

namespace Diagnostic

/-- A diagnostic is about the same thing further on. A cause that quotes an earlier place moves that
as well. -/
def shift (d : Diagnostic) : Diagnostic := ⟨d.cause.shift s, d.line + s.lines, d.extent.shift s⟩

/-- A diagnostic about one place. -/
@[simp] theorem about_shift {span : Span} {cause : Cause} (h : cause.shift s = cause) :
    (about span cause).shift s = about (span.shift s) cause := by
  simp only [shift, about, h, Span.extent_shift]
  rfl

@[simp] theorem shift_zero (d : Diagnostic) : d.shift 0 = d := by
  obtain ⟨cause, line, extent⟩ := d
  cases cause <;> rfl

end Diagnostic

end BindingIdl
