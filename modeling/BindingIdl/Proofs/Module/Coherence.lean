import BindingIdl.Proofs.Printing.Layout

/-!
# Types as a generator sees them

A generator looks at a classified type field by field, and the fields have to say one thing. The
kind decides how a value crosses the boundary; a type that is no class has the spelling of a builtin
and nothing in front of it; nothing at all is only returned, and a constant reference only taken;
ownership moves where a plain pointer is returned, and nowhere else.

The name of a builtin means the builtin, whatever the file declares. So a matrix or a vector is
never held by a pointer, and a class can have the name of either one only behind a namespace.

`Module.ofText_coherent` is this for every type of an accepted module, in its place. It comes from
`TypeRef.Canonical`, which keeps the rule that each type was classified by.
-/

namespace BindingIdl

/-! ## The conditions -/

/-- The one way a kind crosses the boundary. -/
def TypeKind.wrapping : TypeKind → Wrapping
  | primitive _ => .byRawValue
  | eigenMatrix => .byMatrix
  | eigenVector => .byVector
  | classValue => .byValueCopy
  | classConstReference => .byConstReference
  | sharedPointer | rawPointer => .byOwnedPointer

/-- How a kind is spelled that is no class. -/
def TypeKind.spelling? : TypeKind → Option String
  | primitive p => some p.text
  | eigenMatrix => some "Matrix"
  | eigenVector => some "Vector"
  | classValue | classConstReference | sharedPointer | rawPointer => none

/-- The fields of a type agree with each other, and with its place in a signature. -/
structure TypeRef.Coherent (position : TypePosition) (r : TypeRef) : Prop where
  wrapping : r.wrapping = r.kind.wrapping
  builtin : ∀ spelling, r.kind.spelling? = some spelling → r.namespaces = [] ∧ r.name = spelling
  void : r.kind = .primitive .void → position = .returned
  constReference : r.kind = .classConstReference → position = .argument
  transfers : r.transfersOwnership = true ↔ r.kind = .rawPointer ∧ position = .returned
  /-- A class that has the name of a builtin stands in a namespace. -/
  named : r.kind.isClass = true → r.namespaces = [] → Builtin.ofName? r.name = none
  /-- A builtin is never held by a pointer. -/
  held : r.wrapping = .byOwnedPointer → r.namespaces = [] → Builtin.ofName? r.name = none

/-- The types of a member, each with its position. -/
def Member.uses (m : Member) : List (TypePosition × TypeRef) :=
  m.returns?.toList.map (.returned, ·) ++ m.args.map fun a => (.argument, a.type)

/-- Every type the class mentions, member by member. -/
def Class.uses (c : Class) : List (TypePosition × TypeRef) := c.members.flatMap Member.uses

/-! ## Kinds -/

theorem Builtin.wrapping_kind (b : Builtin) : b.kind.wrapping = b.kind.kind.wrapping := by
  cases b <;> rfl

theorem Builtin.spelling?_kind (b : Builtin) : b.kind.kind.spelling? = some b.spelling := by
  cases b <;> rfl

/-- Of all builtins only `void` has the kind of nothing. -/
theorem Builtin.kind_eq_void {b : Builtin} (h : b.kind.kind = .primitive .void) : b = .void := by
  cases b <;> simp_all [kind]

/-- Only classes are owned through pointers. -/
theorem TypeKind.isClass_of_pointer {kind : TypeKind} (h : kind.wrapping = .byOwnedPointer) :
    kind.isClass = true := by
  cases kind <;> simp_all [wrapping, isClass]

/-- A class has no spelling of its own, so its name is its path. -/
theorem TypeKind.spelling?_of_isClass {kind : TypeKind} (h : kind.isClass = true) :
    kind.spelling? = none := by
  cases kind <;> simp_all [spelling?, isClass]

/-- What a class is classified as, and where. -/
theorem classWrapping_coherent {position : TypePosition} {type : TypeExpr} {wrapped : WrappedKind}
    (h : classWrapping position type = .ok wrapped) :
    wrapped.wrapping = wrapped.kind.wrapping ∧
      (wrapped.kind = .classConstReference → position = .argument) := by
  unfold classWrapping at h
  split at h <;> cases h <;> exact ⟨rfl, by simp⟩

/-- What holds of a type by the way it was classified. -/
theorem TypeRef.Canonical.coherent {position : TypePosition} {r : TypeRef}
    (h : r.Canonical position) : r.Coherent position := by
  cases h with
  | @builtin b name hname hvoid =>
    have hclass := b.isClass_kind
    refine ⟨b.wrapping_kind, fun spelling h => ?_, fun h => hvoid (Builtin.kind_eq_void h),
      fun h => ?_, ?_, fun h => ?_, fun h => ?_⟩
    · have hspelling : b.spelling = spelling :=
        Option.some.inj (b.spelling?_kind.symm.trans h)
      exact ⟨rfl, (Builtin.eq_spelling hname).trans hspelling⟩
    · exact absurd hclass (by simp [show b.kind.kind = _ from h, TypeKind.isClass])
    · refine ⟨fun h => absurd h Bool.false_ne_true, fun h => absurd hclass ?_⟩
      simp [show b.kind.kind = _ from h.1, TypeKind.isClass]
    · exact absurd h (by simp [ofBuiltin, hclass])
    · have hpointer : b.kind.kind.wrapping = .byOwnedPointer := b.wrapping_kind.symm.trans h
      rw [TypeKind.isClass_of_pointer hpointer] at hclass
      cases hclass
  | @reference type wrapped reference hwrapped hwell hbare =>
    obtain ⟨hwrapping, hposition⟩ := classWrapping_coherent hwrapped
    have hnamed (h : reference.path.namespaces = []) : Builtin.ofName? reference.path.name = none :=
      hbare (by simp [QualifiedName.isQualified, h])
    refine ⟨hwrapping, fun spelling h => ?_, fun h => ?_, hposition, ?_, fun _ => hnamed,
      fun _ => hnamed⟩
    · rw [ofReference, TypeKind.spelling?_of_isClass (classWrapping_isClass hwrapped)] at h
      cases h
    · exact absurd (classWrapping_isClass hwrapped)
        (by simp [show wrapped.kind = _ from h, TypeKind.isClass])
    · simp [ofReference]

/-! ## The tree -/

theorem Member.Canonical.coherent {m : Member} (h : m.Canonical) :
    ∀ u ∈ m.uses, u.2.Coherent u.1 := by
  have hargs {args : List Argument} (h : ∀ a ∈ args, a.Canonical) :
      ∀ u ∈ args.map fun a => (TypePosition.argument, a.type), u.2.Coherent u.1 :=
    List.forall_mem_map.mpr fun a ha => (h a ha).type.coherent
  cases h with
  | constructor h => exact hargs h
  | method _ _ h hreturns => exact List.forall_mem_cons.mpr ⟨hreturns.coherent, hargs h⟩
  | staticMethod _ _ h hreturns => exact List.forall_mem_cons.mpr ⟨hreturns.coherent, hargs h⟩

theorem Class.Canonical.coherent {scope : List String} {inherited : Option String} {c : Class}
    (h : c.Canonical scope inherited) : ∀ u ∈ c.uses, u.2.Coherent u.1 := by
  cases h with
  | forward => exact nofun
  | definition _ _ _ hmembers =>
    intro u hu
    obtain ⟨m, hm, hu⟩ := List.mem_flatMap.mp hu
    exact (hmembers m hm).coherent u hu

/-- Every class of a level of the tree is canonical in its own place. -/
theorem Namespace.AllCanonical.exists_canonical {scope : List String} {inherited : Option String}
    {spaces : List Namespace} (h : AllCanonical scope inherited spaces) :
    ∀ c ∈ classesOfAll spaces, ∃ scope inherited, c.Canonical scope inherited := by
  induction h with
  | nil => exact nofun
  | cons _ _ _ hclasses _ ih ihrest =>
    intro c hc
    rw [classesOfAll, allClasses, List.append_assoc, List.mem_append, List.mem_append] at hc
    obtain hc | hc | hc := hc
    · exact ⟨_, _, hclasses c hc⟩
    · exact ih c hc
    · exact ihrest c hc

/-- Every type in a signature, at any depth of the tree. -/
theorem Module.Canonical.coherent {m : Module} (h : m.Canonical) :
    ∀ c ∈ m.allClasses, ∀ u ∈ c.uses, u.2.Coherent u.1 := by
  intro c hc
  obtain hc | hc := List.mem_append.mp hc
  · exact (h.classes c hc).coherent
  · obtain ⟨scope, inherited, hcanonical⟩ := h.namespaces.exists_canonical c hc
    exact hcanonical.coherent

/-- The types of every accepted module are coherent, each in its place. -/
theorem Module.ofText_coherent {settings : Settings} {text : String} {m : Module}
    (h : Module.ofText settings text = .ok m) :
    ∀ c ∈ m.allClasses, ∀ u ∈ c.uses, u.2.Coherent u.1 :=
  (canonical_of_ofText h).coherent

/-- Classes with the names of both builtins. Without a namespace the names still mean the builtins,
and behind `algebra::` the classes. -/
def shadowedText : String :=
  "class Vector \x7b\n\x7d;\nnamespace algebra \x7b\nclass Matrix \x7b\n" ++
  "Matrix(const Vector& v);\nalgebra::Matrix* grow(shared_ptr<algebra::Matrix> m);\n\x7d;\n\x7d\n"

/-- What is read from that text: an Eigen vector in the constructor, and the class `algebra::Matrix`
in the method. -/
def shadowedModule : Module :=
  let vector : TypeRef := ⟨.eigenVector, .byVector, [], "Vector", none, false⟩
  let grown : TypeRef :=
    ⟨.rawPointer, .byOwnedPointer, ["algebra"], "Matrix", some .declared, true⟩
  let held : TypeRef :=
    ⟨.sharedPointer, .byOwnedPointer, ["algebra"], "Matrix", some .declared, false⟩
  ⟨[⟨some "algebra", ["algebra"], none, [],
      [⟨"Matrix", ["algebra"], none, "Matrix.h", false,
        [.constructor ⟨[⟨"v", vector⟩]⟩, .method ⟨"grow", [⟨"m", held⟩], grown, false⟩]⟩]⟩],
   [⟨"Vector", [], none, "Vector.h", false, []⟩]⟩

theorem Module.shadowedModule_coherent :
    Module.ofText default shadowedText = .ok shadowedModule ∧
      ∀ c ∈ shadowedModule.allClasses, ∀ u ∈ c.uses, u.2.Coherent u.1 := by
  have htext : Module.ofText default shadowedText = .ok shadowedModule :=
    Except.eq_ok_of_toOption (by decide +kernel)
  exact ⟨htext, ofText_coherent htext⟩

end BindingIdl
