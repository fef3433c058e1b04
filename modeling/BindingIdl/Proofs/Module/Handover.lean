import BindingIdl.Proofs.Module.Legality

/-!
# What resolution hands over

Resolution walks over the types of a file with the scopes they stand in, and so does the check, in
another order and by other functions. What the first has resolved is enough for the second, however
the file came about: nothing is asked of its names, and its ids may repeat.

A table that resolution hands over still has every declared path (`SymbolTable.records_of_ofFile`)
and a meaning for every class name. So all that the check can object to are the rules for classes,
of which none is about names that mean nothing (`ClassDecl.Faulted.kind`), and the forward
declarations it comes to are known to the table.
-/

namespace BindingIdl

/-! ## The table -/

namespace SymbolTable

/-- Resolution leaves the classes alone. -/
theorem sameClasses_of_foldlM {table next : SymbolTable} (os : List Occurrence)
    (h : os.foldlM visit table = .ok next) : next.SameClasses table := by
  induction os generalizing table with
  | nil =>
    cases h
    exact .refl _
  | cons o os ih =>
    rw [List.foldlM_cons, Except.bind_eq_ok_iff] at h
    obtain ⟨mid, hvisit, hrest⟩ := h
    exact (ih hrest).trans (visit_eq_ok hvisit (.refl _)).1

/-- The table of a file that resolves knows what the file declares. -/
theorem records_of_ofFile {file : InterfaceFile} {table : SymbolTable}
    (h : ofFile file = .ok table) : Records file.declarations table := by
  rcases ofFile_cases file with ⟨-, base, hrecords, -, hrun⟩ | ⟨-, d, -, earlier, herror⟩
  · exact hrecords.congr (sameClasses_of_foldlM _ (hrun.symm.trans h))
  · rw [herror] at h
    cases h

/-- A declared path is found, whatever it is made of. -/
theorem Records.exists_lookup {ds : List (Scoped Declaration)} {table : SymbolTable}
    (h : Records ds table) {d : Scoped Declaration} (hd : d ∈ ds) :
    ∃ id s, table.lookup d.path.text = some id ∧ table.symbol? id = some s := by
  rcases h.lookup_cases d.path with ⟨-, hunseen⟩ | ⟨id, s, hid, hs, -⟩
  · exact absurd rfl (hunseen d hd)
  · exact ⟨id, s, hid, hs⟩

end SymbolTable

/-! ## The check -/

/-- A rule for classes is broken by a type or by two members. -/
theorem ClassDecl.Faulted.kind {table : SymbolTable} {settings : CheckSettings} {decl : ClassDecl}
    {e : Diagnostic} (h : decl.Faulted table settings e) :
    e.kind = .invalidWrapping ∨ e.kind = .duplicateMember := by
  cases h with
  | illegalType => exact .inl rfl
  | repeatedMethod => exact .inr rfl
  | repeatedConstructor => exact .inr rfl
  | ambiguousConstructor => exact .inr rfl

/-- Where a file resolves, the check can only find fault with one of its classes. -/
theorem Module.faulted_of_ofFile {file : InterfaceFile} {table : SymbolTable}
    (htable : SymbolTable.ofFile file = .ok table) {settings : CheckSettings} {e : Diagnostic}
    (h : ofFile settings table file = .error e) :
    ∃ d ∈ file.definitions, d.decl.Faulted table settings e := by
  obtain ⟨before, p, after, hplacements, -, hp⟩ :=
    Except.mapM_eq_error_iff.mp (ofFile_eq_error_iff.mp h)
  have hd : p.definition ∈ file.definitions := by
    refine InterfaceFile.mem_definitions_of_placement ?_
    rw [hplacements]
    exact List.mem_append_right _ List.mem_cons_self
  exact ⟨p.definition, hd, ClassDecl.faulted_of_ofDecl
    (fun type htype => SymbolTable.isSome_reference?_of_ofFile htable hd htype) hp⟩

/-! ## Both together -/

/-- The check never comes to a name that resolution left without a meaning, nor to a forward
declaration that the table does not know. -/
theorem Module.handed_over {file : InterfaceFile} {table : SymbolTable}
    (htable : SymbolTable.ofFile file = .ok table) :
    (∀ settings e, ofFile settings table file = .error e → e.kind ≠ .unresolvedType) ∧
    ∀ scope decl, ⟨scope, .forward decl⟩ ∈ file.declarations →
      ∃ id s, table.lookup (QualifiedName.text ⟨scope, decl.name⟩) = some id ∧
        table.symbol? id = some s := by
  constructor
  · intro settings e he hunresolved
    obtain ⟨d, -, hfaulted⟩ := faulted_of_ofFile htable he
    rcases hfaulted.kind with hkind | hkind <;>
      · rw [hkind] at hunresolved
        cases hunresolved
  · intro scope decl hd
    exact (SymbolTable.records_of_ofFile htable).exists_lookup hd

/-- All nodes of this file share one id, so the meaning of `Base` replaces that of `Line`, and its
scope has a name that no text can have. The check gets as far as the reference that is not
constant. -/
def sharedIds : InterfaceFile :=
  let span : Span := ⟨0, 1, 1⟩
  let params : List ParameterDecl :=
    [⟨0, "l", ⟨0, false, .bare "Line", none, .value, span⟩⟩,
      ⟨0, "b", ⟨0, false, .bare "Base", none, .reference, span⟩⟩]
  ⟨[.space ⟨0, some "a::b", none, none, span⟩
    [.forward ⟨0, "Base", span⟩,
      .definition ⟨0, "Line", none, [.constructor ⟨0, params, span⟩], span⟩]]⟩

/-- The file is resolved, then refused for the reference, and never for an unknown type. -/
theorem Module.sharedIds_handed_over :
    ∃ table, SymbolTable.ofFile sharedIds = .ok table ∧
      (∃ e, ofFile ⟨true⟩ table sharedIds = .error e ∧ e.kind ≠ .unresolvedType) ∧
      ∃ id s, table.lookup "a::b::Base" = some id ∧ table.symbol? id = some s := by
  have hresolved : (SymbolTable.ofFile sharedIds).toOption.isSome = true := by decide +kernel
  have hrefused : (sharedIds.module ⟨true⟩).toOption = none := by decide +kernel
  cases htable : SymbolTable.ofFile sharedIds with
  | error d => rw [htable] at hresolved; cases hresolved
  | ok table =>
    have hmodule : sharedIds.module ⟨true⟩ = ofFile ⟨true⟩ table sharedIds := by
      rw [InterfaceFile.module, htable]
      rfl
    obtain ⟨hkind, hknown⟩ := handed_over htable
    refine ⟨table, rfl, ?_, hknown ["a::b"] _ List.mem_cons_self⟩
    rw [hmodule] at hrefused
    cases hrun : ofFile ⟨true⟩ table sharedIds with
    | ok m => rw [hrun] at hrefused; cases hrefused
    | error e => exact ⟨e, rfl, hkind ⟨true⟩ e hrun⟩

end BindingIdl
