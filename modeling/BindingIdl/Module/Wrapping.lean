import BindingIdl.Declaration
import BindingIdl.Diagnostic
import BindingIdl.Module

/-!
# How types cross the binding boundary

Two rules say what becomes of a type: `Builtin.wrapping` for builtin names, and `classWrapping` for
classes. Both look only at how the type is written and at whether it is returned, and both say which
fault makes a type illegal.
-/

namespace BindingIdl

/-- Where a type stands in a signature. -/
inductive TypePosition where
  | argument
  | returned
deriving DecidableEq, Repr, Inhabited

/-- What a legal type denotes, and how it crosses the boundary. -/
structure WrappedKind where
  kind : TypeKind
  wrapping : Wrapping
deriving DecidableEq, Repr, Inhabited

/-- The kind of a builtin that is passed by value. -/
def Builtin.kind : Builtin → WrappedKind
  | .matrix => ⟨.eigenMatrix, .byMatrix⟩
  | .vector => ⟨.eigenVector, .byVector⟩
  | .string => ⟨.primitive .string, .byRawValue⟩
  | .bool => ⟨.primitive .bool, .byRawValue⟩
  | .size => ⟨.primitive .size, .byRawValue⟩
  | .int => ⟨.primitive .int, .byRawValue⟩
  | .double => ⟨.primitive .double, .byRawValue⟩
  | .char => ⟨.primitive .char, .byRawValue⟩
  | .void => ⟨.primitive .void, .byRawValue⟩

/-- A builtin is never held by a pointer, and a reference to one has to be constant. Nothing at
all is a plain return type only. -/
def Builtin.wrapping (builtin : Builtin) (position : TypePosition) (type : TypeExpr) :
    Except WrappingFault WrappedKind :=
  if type.wrapper.isSome then
    .error (if builtin.isEigen then .heldEigen else .heldPrimitive)
  else if builtin = .void then
    if position = .returned && type.indirection = .value && !type.isConst then .ok builtin.kind
    else .error .misplacedVoid
  else
    match type.indirection, type.isConst with
    | .pointer, _ => .error .builtinPointer
    | .reference, false => .error .mutableReference
    | _, _ => .ok builtin.kind

/-- A class is passed by value, by constant reference, by plain pointer or by shared pointer; a
constant reference that is returned is copied. -/
def classWrapping (position : TypePosition) (type : TypeExpr) : Except WrappingFault WrappedKind :=
  match type.indirection, type.wrapper.isSome, type.isConst, position with
  | .reference, _, false, _ => .error .mutableReference
  | .pointer, true, _, _ => .error .pointerToShared
  | _, true, _, _ => .ok ⟨.sharedPointer, .byOwnedPointer⟩
  | .pointer, false, _, _ => .ok ⟨.rawPointer, .byOwnedPointer⟩
  | .reference, false, _, .argument => .ok ⟨.classConstReference, .byConstReference⟩
  | .reference, false, _, .returned => .ok ⟨.classValue, .byValueCopy⟩
  | .value, false, _, _ => .ok ⟨.classValue, .byValueCopy⟩

end BindingIdl
