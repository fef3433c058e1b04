import BindingIdl.Proofs.Symbol.Scoping
import Mathlib.Data.List.Nodup

/-!
# Resolving a file

Resolution visits the types of all signatures one after another. As it adds references and leaves
the symbols alone, what each type means depends only on what was collected: `Bound base os table`
says what a table holds behind the occurrences `os`, and `bound_of_foldlM` carries it through the
run. With the scoping rule this gives `ofFile_follows_scoping`: which files resolve, and what is
recorded for them.
-/

namespace BindingIdl

open Declaration

/-! ## Occurrences -/

/-- What is no builtin has to be a class. -/
theorem TypeExpr.isClassReference_iff {type : TypeExpr} :
    type.isClassReference = true ↔ type.builtin? = none := by
  rw [isClassReference, Option.isNone_iff_eq_none]

/-- The types in the signatures of a class, in order. -/
def ClassDecl.types (decl : ClassDecl) : List TypeExpr := decl.members.flatMap MemberDecl.types

/-- A type in a signature, with the place it stands in. -/
structure Occurrence where
  scope : List String
  owner : String
  member : MemberDecl
  type : TypeExpr

namespace Occurrence

/-- The types of all signatures in reading order. -/
def ofDefinitions (definitions : List (Scoped ClassDecl)) : List Occurrence :=
  definitions.flatMap fun d => d.decl.members.flatMap fun member =>
    member.types.map fun type => ⟨d.scope, d.decl.name, member, type⟩

theorem map_type (file : InterfaceFile) :
    (ofDefinitions file.definitions).map (·.type) = file.types := by
  simp [ofDefinitions, InterfaceFile.types, List.map_flatMap, Function.comp_def]

/-- What holds of every occurrence holds of every type in every class. -/
theorem forall_mem_iff {definitions : List (Scoped ClassDecl)}
    (p : List String → TypeExpr → Prop) :
    (∀ o ∈ ofDefinitions definitions, p o.scope o.type) ↔
      ∀ d ∈ definitions, ∀ type ∈ d.decl.types, p d.scope type := by
  simp only [ofDefinitions, ClassDecl.types, List.mem_flatMap, List.mem_map]
  constructor
  · rintro h d hd type ⟨member, hmember, htype⟩
    exact h ⟨d.scope, d.decl.name, member, type⟩ ⟨d, hd, member, hmember, type, htype, rfl⟩
  · rintro h _ ⟨d, hd, member, hmember, type, htype, rfl⟩
    exact h d hd type ⟨member, hmember, htype⟩

end Occurrence

namespace Occurrence

/-- The name is that of a builtin, or `base` knows what it means. -/
def Found (base : SymbolTable) (o : Occurrence) : Prop :=
  o.type.isClassReference = true → (base.resolve? o.scope o.type.name).isSome = true

/-- What is said of a type whose name means nothing. -/
def complaint (o : Occurrence) : Diagnostic :=
  .about o.type.span
    (.unresolvedType o.type.name (o.member.signature o.owner) (o.type.name.candidates o.scope))

end Occurrence

namespace SymbolTable

variable {base table next : SymbolTable} {os : List Occurrence} {o : Occurrence} {e : Diagnostic}

/-- Resolve one type. -/
def visit (table : SymbolTable) (o : Occurrence) : Except Diagnostic SymbolTable :=
  resolveType o.scope o.owner o.member table o.type

private theorem foldlM_flatMap {α β γ : Type} (f : β → γ → Except Diagnostic β) (g : α → List γ)
    (as : List α) (b : β) :
    (as.flatMap g).foldlM f b = as.foldlM (fun b a => (g a).foldlM f b) b := by
  induction as generalizing b with
  | nil => rfl
  | cons a as ih =>
    rw [List.flatMap_cons, List.foldlM_append, List.foldlM_cons]
    exact bind_congr fun b => ih b

/-- The loops over classes, members and types are one loop over occurrences. -/
theorem resolveAll_eq_foldlM (table : SymbolTable) (file : InterfaceFile) :
    table.resolveAll file = (Occurrence.ofDefinitions file.definitions).foldlM visit table := by
  rw [Occurrence.ofDefinitions, foldlM_flatMap, resolveAll]
  congr 1
  funext table d
  rw [foldlM_flatMap, resolveClass]
  congr 1
  funext table member
  rw [List.foldlM_map]
  rfl

/-! ## One step -/

/-- What a name means depends on the classes alone. -/
theorem resolve?_congr (h : table.SameClasses base) (scope : List String)
    (name : QualifiedName) : table.resolve? scope name = base.resolve? scope name := by
  simp only [resolve?, h.rootStub_eq, h.lookup_eq, h.symbol?_eq]

/-- What a table holds once the types in `os` have been resolved by what `base` knows. -/
structure Bound (base : SymbolTable) (os : List Occurrence) (table : SymbolTable) : Prop where
  classes : table.SameClasses base
  bound : ∀ o ∈ os, o.type.isClassReference = true → ∃ r,
    base.resolve? o.scope o.type.name = some r ∧ table.reference? o.type.id = some r
  only : ∀ n r, table.reference? n = some r →
    ∃ o ∈ os, o.type.isClassReference = true ∧ o.type.id = n
  count : table.referenceCount = (os.filter (·.type.isClassReference)).length

/-- Before the first visit nothing is bound. -/
theorem bound_nil (h : base.references = ∅) : Bound base [] base where
  classes := .refl base
  bound o ho := absurd ho List.not_mem_nil
  only n r hr := by simp [reference?, h] at hr
  count := by simp [referenceCount, h]

theorem referenceCount_record {n : NodeId} (h : table.reference? n = none) (r : Reference) :
    (table.record n r).referenceCount = table.referenceCount + 1 := by
  have hn : n ∉ table.references := by
    rw [Std.TreeMap.mem_iff_isSome_getElem?, ← reference?, h]
    decide
  simp [referenceCount, record, Std.TreeMap.size_insert, hn]

/-- The step: a type that is found gets a meaning under its id, and no other id is touched. -/
theorem Bound.visit (h : Bound base os table) (hfresh : ∀ o' ∈ os, o'.type.id ≠ o.type.id)
    (hfound : o.Found base) :
    ∃ next, table.visit o = .ok next ∧ Bound base (os ++ [o]) next := by
  cases hclass : o.type.isClassReference with
  | false =>
    refine ⟨table, by simp [SymbolTable.visit, resolveType, hclass], h.classes, ?_, ?_, ?_⟩
    · intro o' ho' hclass'
      obtain ho' | rfl := List.mem_append.mp ho' |>.imp_right List.mem_singleton.mp
      · exact h.bound o' ho' hclass'
      · rw [hclass] at hclass'
        cases hclass'
    · intro n r hr
      obtain ⟨o', ho', hclass', hid⟩ := h.only n r hr
      exact ⟨o', List.mem_append_left _ ho', hclass', hid⟩
    · simp [h.count, hclass]
  | true =>
    obtain ⟨r, hr⟩ := Option.isSome_iff_exists.mp (hfound hclass)
    have hvisit : table.visit o = .ok (table.record o.type.id r) := by
      simp [SymbolTable.visit, resolveType, hclass, resolve?_congr h.classes, hr]
    -- ids are not used twice, so the reference is a new one
    have hnone : table.reference? o.type.id = none := by
      cases hsome : table.reference? o.type.id with
      | none => rfl
      | some r' =>
        obtain ⟨o', ho', -, hid⟩ := h.only _ r' hsome
        exact absurd hid (hfresh o' ho')
    refine ⟨_, hvisit, h.classes.record _ _, ?_, ?_, ?_⟩
    · intro o' ho' hclass'
      obtain ho' | rfl := List.mem_append.mp ho' |>.imp_right List.mem_singleton.mp
      · obtain ⟨r', hr', href⟩ := h.bound o' ho' hclass'
        refine ⟨r', hr', ?_⟩
        rw [reference?_record, if_neg (hfresh o' ho').symm, href]
      · exact ⟨r, hr, by rw [reference?_record, if_pos rfl]⟩
    · intro n r' hr'
      rw [reference?_record] at hr'
      by_cases hn : o.type.id = n
      · exact ⟨o, List.mem_concat_self, hclass, hn⟩
      · rw [if_neg hn] at hr'
        obtain ⟨o', ho', hclass', hid⟩ := h.only n r' hr'
        exact ⟨o', List.mem_append_left _ ho', hclass', hid⟩
    · rw [referenceCount_record hnone, h.count]
      simp [hclass]

/-! ## A whole run -/

/-- Where everything is found, resolution succeeds. -/
theorem Bound.foldlM (h : Bound base os table) (rest : List Occurrence)
    (hids : ((os ++ rest).map (·.type.id)).Nodup) (hfound : ∀ o ∈ rest, o.Found base) :
    ∃ next, rest.foldlM SymbolTable.visit table = .ok next ∧ Bound base (os ++ rest) next := by
  induction rest generalizing os table with
  | nil => exact ⟨table, rfl, by simpa using h⟩
  | cons o rest ih =>
    have hcons : os ++ o :: rest = os ++ [o] ++ rest := by simp
    have hfresh : ∀ o' ∈ os, o'.type.id ≠ o.type.id := by
      intro o' ho' hid
      rw [List.map_append, List.nodup_append] at hids
      exact hids.2.2 _ (List.mem_map_of_mem ho') _ (List.mem_map_of_mem List.mem_cons_self) hid
    obtain ⟨mid, hmid, hbound⟩ := h.visit hfresh (hfound o List.mem_cons_self)
    rw [hcons] at hids ⊢
    obtain ⟨next, hnext, hbound'⟩ := ih hbound hids fun o' ho' =>
      hfound o' (List.mem_cons_of_mem _ ho')
    refine ⟨next, ?_, hbound'⟩
    rw [List.foldlM_cons, hmid]
    exact hnext

/-- A visit that goes well has found a class, and changes none. -/
theorem visit_eq_ok (h : table.visit o = .ok next) (hclasses : table.SameClasses base) :
    next.SameClasses base ∧ o.Found base := by
  rw [SymbolTable.visit, resolveType, resolve?_congr hclasses] at h
  split at h
  · split at h
    · rename_i r hr
      cases h
      exact ⟨hclasses.record _ _, fun _ => by rw [hr]; rfl⟩
    · cases h
  · rename_i hclass
    cases h
    exact ⟨hclasses, fun h => absurd h hclass⟩

/-- A visit that fails has found none, and complains about its type. -/
theorem visit_eq_error (h : table.visit o = .error e) (hclasses : table.SameClasses base) :
    ¬ o.Found base ∧ e = o.complaint := by
  rw [SymbolTable.visit, resolveType, resolve?_congr hclasses] at h
  split at h
  · rename_i hclass
    split at h
    · cases h
    · rename_i hnone
      cases h
      refine ⟨fun hfound => ?_, rfl⟩
      have hsome := hfound hclass
      rw [hnone] at hsome
      cases hsome
  · cases h

/-- Where resolution succeeds, everything has been found. -/
theorem found_of_foldlM (hclasses : table.SameClasses base) (rest : List Occurrence)
    (h : rest.foldlM visit table = .ok next) : ∀ o ∈ rest, o.Found base := by
  induction rest generalizing table with
  | nil => exact fun o ho => absurd ho List.not_mem_nil
  | cons o rest ih =>
    rw [List.foldlM_cons] at h
    cases hvisit : table.visit o with
    | error d => rw [hvisit] at h; cases h
    | ok mid =>
      rw [hvisit] at h
      obtain ⟨hmid, hfound⟩ := visit_eq_ok hvisit hclasses
      intro o' ho'
      obtain rfl | ho' := List.mem_cons.mp ho'
      · exact hfound
      · exact ih hmid h o' ho'

/-- Where resolution fails, everything up to the type it is about has been found. -/
theorem first_of_foldlM (hclasses : table.SameClasses base) (rest : List Occurrence)
    (h : rest.foldlM visit table = .error e) :
    ∃ before o after, rest = before ++ o :: after ∧ (∀ b ∈ before, b.Found base) ∧
      ¬ o.Found base ∧ e = o.complaint := by
  induction rest generalizing table with
  | nil => cases h
  | cons o rest ih =>
    rw [List.foldlM_cons] at h
    cases hvisit : table.visit o with
    | error d =>
      rw [hvisit] at h
      cases h
      exact ⟨[], o, rest, rfl, by simp, visit_eq_error hvisit hclasses⟩
    | ok mid =>
      rw [hvisit] at h
      obtain ⟨hmid, hfound⟩ := visit_eq_ok hvisit hclasses
      obtain ⟨before, o', after, rfl, hbefore, ho'⟩ := ih hmid h
      exact ⟨o :: before, o', after, rfl, List.forall_mem_cons.mpr ⟨hfound, hbefore⟩, ho'⟩

theorem reference?_of_visit (h : table.visit o = .ok next) :
    (∀ n, (table.reference? n).isSome = true → (next.reference? n).isSome = true) ∧
      (o.type.isClassReference = true → (next.reference? o.type.id).isSome = true) := by
  rw [SymbolTable.visit, resolveType] at h
  split at h
  · split at h
    · cases h
      constructor
      · intro n hn
        rw [reference?_record]
        split
        · rfl
        · exact hn
      · intro _
        rw [reference?_record, if_pos rfl]
        rfl
    · cases h
  · rename_i hclass
    cases h
    exact ⟨fun n hn => hn, fun hclass' => absurd hclass' hclass⟩

/-- A node that has a meaning keeps one, and in the end every class name that was visited has one,
even where ids are used twice. -/
theorem reference?_of_foldlM (rest : List Occurrence) (h : rest.foldlM visit table = .ok next) :
    (∀ n, (table.reference? n).isSome = true → (next.reference? n).isSome = true) ∧
      ∀ o ∈ rest, o.type.isClassReference = true → (next.reference? o.type.id).isSome = true := by
  induction rest generalizing table with
  | nil =>
    cases h
    exact ⟨fun n hn => hn, fun o ho => absurd ho List.not_mem_nil⟩
  | cons o rest ih =>
    rw [List.foldlM_cons] at h
    cases hvisit : table.visit o with
    | error d => rw [hvisit] at h; cases h
    | ok mid =>
      rw [hvisit] at h
      obtain ⟨hkept, hnew⟩ := reference?_of_visit hvisit
      obtain ⟨hkept', hrest⟩ := ih h
      constructor
      · exact fun n hn => hkept' n (hkept n hn)
      · intro o' ho' hclass
        rcases List.mem_cons.mp ho' with rfl | ho'
        · exact hkept' _ (hnew hclass)
        · exact hrest o' ho' hclass

end SymbolTable

/-! ## Files -/

namespace InterfaceFile

/-- The paths that a file defines. -/
def definedPaths (file : InterfaceFile) : List QualifiedName :=
  Declaration.definedPaths file.declarations

/-- The paths that a file declares without a body. -/
def forwardPaths (file : InterfaceFile) : List QualifiedName :=
  Declaration.forwardPaths file.declarations

/-- The names of a file are identifiers. -/
structure Wellnamed (file : InterfaceFile) : Prop where
  declared : ∀ d ∈ file.declarations, d.path.Wellformed
  used : ∀ type ∈ file.types, type.name.Wellformed

theorem mem_definitions_iff {file : InterfaceFile} {d : Scoped ClassDecl} :
    d ∈ file.definitions ↔ ⟨d.scope, .definition d.decl⟩ ∈ file.declarations := by
  obtain ⟨scope, decl⟩ := d
  rw [definitions, Declaration.definitions, List.mem_filterMap]
  constructor
  · rintro ⟨⟨scope', e⟩, he, hd⟩
    cases e with
    | definition => cases hd; exact he
    | forward => cases hd
  · exact fun h => ⟨_, h, rfl⟩

theorem Wellnamed.scope {file : InterfaceFile} (h : file.Wellnamed) {d : Scoped ClassDecl}
    (hd : d ∈ file.definitions) : ∀ s ∈ d.scope, isIdentifier s = true :=
  (QualifiedName.wellformed_mk_iff.mp (h.declared _ (mem_definitions_iff.mp hd))).1

theorem Wellnamed.name {file : InterfaceFile} (h : file.Wellnamed) {d : Scoped ClassDecl}
    (hd : d ∈ file.definitions) {type : TypeExpr} (htype : type ∈ d.decl.types) :
    type.name.Wellformed :=
  h.used type (List.mem_flatMap.mpr ⟨d, hd, htype⟩)

/-- What the type names means something in the file. -/
def Explains (file : InterfaceFile) (o : Occurrence) : Prop :=
  o.type.isClassReference = true →
    ∃ path, Denotes file.definedPaths file.forwardPaths o.scope o.type.name path

end InterfaceFile

namespace SymbolTable

/-- The references that a table records for a file are those that the scoping rule gives it. -/
structure Follows (table : SymbolTable) (file : InterfaceFile) : Prop where
  reference : ∀ d ∈ file.definitions, ∀ type ∈ d.decl.types, type.isClassReference = true →
    ∃ r, table.reference? type.id = some r ∧
      Denotes file.definedPaths file.forwardPaths d.scope type.name r.path ∧
      (r.external = true ↔ r.path ∉ file.definedPaths)
  builtin : ∀ type ∈ file.types, type.isClassReference = false → table.reference? type.id = none
  count : table.referenceCount = (file.types.filter (·.isClassReference)).length

/-- Where all types are bound, the table follows the scoping rules. -/
theorem Bound.follows {file : InterfaceFile} {base table : SymbolTable} (hfile : file.Wellnamed)
    (hids : (file.types.map (·.id)).Nodup) (hbase : Records file.declarations base)
    (h : Bound base (Occurrence.ofDefinitions file.definitions) table) : table.Follows file where
  reference d hd type htype hclass := by
    obtain ⟨r, hr, href⟩ := (Occurrence.forall_mem_iff fun scope type =>
      type.isClassReference = true → ∃ r, base.resolve? scope type.name = some r ∧
        table.reference? type.id = some r).mp h.bound d hd type htype hclass
    have hanswer := hbase.answers hfile.declared (hfile.name hd htype) (hfile.scope hd)
    rw [hr] at hanswer
    exact ⟨r, href, hanswer.1, hanswer.2⟩
  builtin type htype hclass := by
    cases hr : table.reference? type.id with
    | none => rfl
    | some r =>
      obtain ⟨o, ho, hclass', hid⟩ := h.only _ r hr
      -- the reference was recorded for a class name with the same id, so for this very type
      have hmem : o.type ∈ file.types := Occurrence.map_type file ▸ List.mem_map_of_mem ho
      have hsame : o.type = type := List.inj_on_of_nodup_map hids hmem htype hid
      rw [hsame, hclass] at hclass'
      cases hclass'
  count := by
    rw [h.count, ← Occurrence.map_type, List.filter_map, List.length_map]
    rfl

/-- Collecting either ends the resolution or hands it the symbols of the file. -/
theorem ofFile_cases (file : InterfaceFile) :
    (Distinct file.declarations ∧ ∃ base, Records file.declarations base ∧
      base.references = ∅ ∧
      ofFile file = (Occurrence.ofDefinitions file.definitions).foldlM visit base) ∨
    (¬ Distinct file.declarations ∧ ∃ d ∈ file.declarations, ∃ earlier,
      ofFile file = .error (.about d.decl.span (.duplicateClass d.path earlier))) := by
  have hempty : ReflectsAll [] empty := reflects_empty
  obtain ⟨hdistinct, base, hbase, hreflects, hreferences⟩ |
    ⟨hdistinct, before, d, after, hplace, first, -, herror⟩ :=
    collect_cases hempty List.Pairwise.nil file.declarations
  · refine .inl ⟨hdistinct, base, hreflects.records, hreferences, ?_⟩
    rw [ofFile, collect, hbase, ← resolveAll_eq_foldlM]
    rfl
  · have hd : d ∈ file.declarations := by
      rw [← List.nil_append file.declarations, hplace]
      exact List.mem_append_right _ List.mem_cons_self
    refine .inr ⟨hdistinct, d, hd, first.decl.span.extent, ?_⟩
    rw [ofFile, collect, herror]
    rfl

/-- Where a file resolves, every class name in it has a meaning. -/
theorem isSome_reference?_of_ofFile {file : InterfaceFile} {table : SymbolTable}
    (h : ofFile file = .ok table) {d : Scoped ClassDecl} (hd : d ∈ file.definitions)
    {type : TypeExpr} (htype : type ∈ d.decl.types) (hclass : type.isClassReference = true) :
    (table.reference? type.id).isSome = true := by
  rcases ofFile_cases file with ⟨-, base, -, -, hrun⟩ | ⟨-, d, -, earlier, herror⟩
  · have hbound := (reference?_of_foldlM _ (hrun.symm.trans h)).2
    exact (Occurrence.forall_mem_iff fun _ type => type.isClassReference = true →
      (table.reference? type.id).isSome = true).mp hbound d hd type htype hclass
  · rw [herror] at h
    cases h

/-- A name resolves if and only if it denotes something. -/
theorem isSome_resolve?_iff {ds : List (Scoped Declaration)} {base : SymbolTable}
    (h : Records ds base) (hds : ∀ d ∈ ds, d.path.Wellformed) {scope : List String}
    {name : QualifiedName} (hname : name.Wellformed) (hscope : ∀ s ∈ scope, isIdentifier s = true) :
    (base.resolve? scope name).isSome = true ↔
      ∃ path, Denotes (definedPaths ds) (forwardPaths ds) scope name path := by
  have hanswer := h.answers hds hname hscope
  cases hr : base.resolve? scope name with
  | some r =>
    rw [hr] at hanswer
    exact ⟨fun _ => ⟨r.path, hanswer.1⟩, fun _ => rfl⟩
  | none =>
    rw [hr] at hanswer
    exact ⟨fun h => (by cases h), fun ⟨path, hpath⟩ => absurd hpath (hanswer path)⟩

theorem Records.congr {ds : List (Scoped Declaration)} {base table : SymbolTable}
    (h : Records ds base) (hclasses : table.SameClasses base) : Records ds table where
  consistent := h.consistent.congr hclasses
  known := by simpa only [hclasses.symbol?_eq] using h.known
  declared := by simpa only [hclasses.symbol?_eq] using h.declared
  defined := by simpa only [hclasses.symbol?_eq] using h.defined

/-- What is found in the symbols of a file is what means something there. -/
theorem Records.found_iff_explains {file : InterfaceFile} {base : SymbolTable}
    (h : Records file.declarations base) (hfile : file.Wellnamed) :
    ∀ o ∈ Occurrence.ofDefinitions file.definitions, o.Found base ↔ file.Explains o :=
  (Occurrence.forall_mem_iff fun scope type =>
    (type.isClassReference = true → (base.resolve? scope type.name).isSome = true) ↔
    (type.isClassReference = true →
      ∃ path, Denotes file.definedPaths file.forwardPaths scope type.name path)).mpr
    fun _ hd _ htype => imp_congr_right fun _ =>
      isSome_resolve?_iff h hfile.declared (hfile.name hd htype) (hfile.scope hd)

/-- Every class name in a signature is found in the symbols of the file when each of them denotes
something. -/
theorem found_iff_denotes {file : InterfaceFile} {base : SymbolTable} (hfile : file.Wellnamed)
    (h : Records file.declarations base) :
    (∀ o ∈ Occurrence.ofDefinitions file.definitions, o.Found base) ↔
    ∀ d ∈ file.definitions, ∀ type ∈ d.decl.types, type.isClassReference = true →
      ∃ path, Denotes file.definedPaths file.forwardPaths d.scope type.name path := by
  rw [← Occurrence.forall_mem_iff fun scope type => type.isClassReference = true →
    ∃ path, Denotes file.definedPaths file.forwardPaths scope type.name path]
  exact forall₂_congr (h.found_iff_explains hfile)

/-- A table that has been collected knows what the file declares, and has no references yet. -/
theorem records_of_collect {file : InterfaceFile} {base : SymbolTable}
    (h : collect file = .ok base) : Distinct file.declarations ∧
      Records file.declarations base ∧ base.references = ∅ := by
  obtain ⟨hdistinct, base', hbase, hreflects, hreferences⟩ | ⟨-, _, _, _, -, _, -, herror⟩ :=
    collect_cases (show ReflectsAll [] empty from reflects_empty) .nil file.declarations
  · obtain rfl : base = base' := Except.ok.inj (h.symm.trans hbase)
    exact ⟨hdistinct, hreflects.records, hreferences⟩
  · rw [collect, herror] at h
    cases h

/-- The table of a file that resolves, and how it came about. -/
theorem bound_of_ofFile {file : InterfaceFile} {table : SymbolTable}
    (hids : (file.types.map (·.id)).Nodup) (h : ofFile file = .ok table) :
    ∃ base, collect file = .ok base ∧
      (Occurrence.ofDefinitions file.definitions).foldlM visit base = .ok table ∧
      Bound base (Occurrence.ofDefinitions file.definitions) table := by
  rw [ofFile] at h
  cases hbase : collect file with
  | error d => rw [hbase] at h; cases h
  | ok base =>
    rw [hbase] at h
    have hrun : (Occurrence.ofDefinitions file.definitions).foldlM visit base = .ok table :=
      (resolveAll_eq_foldlM base file).symm.trans h
    have hnodup : ((Occurrence.ofDefinitions file.definitions).map (·.type.id)).Nodup := by
      rwa [← Occurrence.map_type, List.map_map] at hids
    obtain ⟨table', htable', hbound⟩ :=
      (bound_nil (records_of_collect hbase).2.2).foldlM _ hnodup
        (found_of_foldlM (.refl base) _ hrun)
    obtain rfl : table = table' := Except.ok.inj (hrun.symm.trans htable')
    exact ⟨base, rfl, hrun, hbound⟩

/-- What is known once a file has been resolved. -/
theorem follows_of_ofFile {file : InterfaceFile} {table : SymbolTable} (hfile : file.Wellnamed)
    (hids : (file.types.map (·.id)).Nodup) (h : ofFile file = .ok table) :
    Distinct file.declarations ∧ Records file.declarations table ∧ table.Follows file ∧
    ∀ d ∈ file.definitions, ∀ type ∈ d.decl.types, type.isClassReference = true →
      ∃ path, Denotes file.definedPaths file.forwardPaths d.scope type.name path := by
  obtain ⟨base, hbase, hrun, hbound⟩ := bound_of_ofFile hids h
  obtain ⟨hdistinct, hrecords, -⟩ := records_of_collect hbase
  exact ⟨hdistinct, hrecords.congr hbound.classes, hbound.follows hfile hids hrecords,
    (found_iff_denotes hfile hrecords).mp (found_of_foldlM (.refl base) _ hrun)⟩

/-- A file resolves when no class is defined twice and every class name denotes something. -/
theorem exists_of_denotes {file : InterfaceFile} (hfile : file.Wellnamed)
    (hids : (file.types.map (·.id)).Nodup) (hdistinct : Distinct file.declarations)
    (hdenotes : ∀ d ∈ file.definitions, ∀ type ∈ d.decl.types, type.isClassReference = true →
      ∃ path, Denotes file.definedPaths file.forwardPaths d.scope type.name path) :
    ∃ table, ofFile file = .ok table := by
  obtain ⟨-, base, hrecords, hreferences, hrun⟩ | ⟨hrepeated, -⟩ := ofFile_cases file
  · have hnodup : ((Occurrence.ofDefinitions file.definitions).map (·.type.id)).Nodup := by
      rwa [← Occurrence.map_type, List.map_map] at hids
    obtain ⟨table, htable, -⟩ := (bound_nil hreferences).foldlM _ hnodup
      ((found_iff_denotes hfile hrecords).mpr hdenotes)
    exact ⟨table, hrun.trans htable⟩
  · exact absurd hdistinct hrepeated

/-- Resolution is the scoping rule. A file resolves when no class is defined twice and every class
name in a signature denotes something, and then the table records what it denotes; where a class is
defined twice, that is what is said, whatever else may be wrong. -/
theorem ofFile_follows_scoping (file : InterfaceFile) (hfile : file.Wellnamed)
    (hids : (file.types.map (·.id)).Nodup) :
    ((∃ table, ofFile file = .ok table) ↔
      file.definedPaths.Nodup ∧
      ∀ d ∈ file.definitions, ∀ type ∈ d.decl.types, type.isClassReference = true →
        ∃ path, Denotes file.definedPaths file.forwardPaths d.scope type.name path) ∧
    (∀ table, ofFile file = .ok table → table.Follows file) ∧
    (¬ file.definedPaths.Nodup → ∃ span path earlier,
      ofFile file = .error (.about span (.duplicateClass path earlier))) := by
  have hdefined : file.definedPaths.Nodup ↔ Distinct file.declarations :=
    (distinct_iff_nodup hfile.declared).symm
  rw [hdefined]
  refine ⟨⟨?_, ?_⟩, ?_, ?_⟩
  · rintro ⟨table, htable⟩
    obtain ⟨hdistinct, -, -, hdenotes⟩ := follows_of_ofFile hfile hids htable
    exact ⟨hdistinct, hdenotes⟩
  · rintro ⟨hdistinct, hdenotes⟩
    exact exists_of_denotes hfile hids hdistinct hdenotes
  · intro table htable
    exact (follows_of_ofFile hfile hids htable).2.2.1
  · intro hrepeated
    obtain ⟨hdistinct, -⟩ | ⟨-, d, -, earlier, herror⟩ := ofFile_cases file
    · exact absurd hdistinct hrepeated
    · exact ⟨_, _, earlier, herror⟩

/-- `class Base; namespace geo { class Point { Point(Point p, Base b, far::Base f, int n); }; }` -/
def sampleFile : InterfaceFile :=
  let span : Span := ⟨0, 1, 1⟩
  let param (id : NodeId) (type : QualifiedName) (name : String) : ParameterDecl :=
    ⟨id + 1, name, ⟨id, false, type, none, .value, span⟩⟩
  let params := [param 1 (.bare "Point") "p", param 3 (.bare "Base") "b",
    param 5 ⟨["far"], "Base"⟩ "f", param 7 (.bare "int") "n"]
  ⟨[.forward ⟨0, "Base", span⟩,
    .space ⟨11, some "geo", none, none, span⟩
      [.definition ⟨10, "Point", none, [.constructor ⟨9, params, span⟩], span⟩]]⟩

/-- The two types that mean something are recorded, the builtin is not. -/
theorem sampleFile_follows_scoping :
    sampleFile.Wellnamed ∧ (sampleFile.types.map (·.id)).Nodup ∧
      ∃ table, ofFile sampleFile = .ok table ∧ table.Follows sampleFile := by
  have hfile : sampleFile.Wellnamed := ⟨by decide, by decide⟩
  have hids : (sampleFile.types.map (·.id)).Nodup := by decide
  have hok : (ofFile sampleFile).toOption.isSome = true := by decide +kernel
  cases hrun : ofFile sampleFile with
  | error d => rw [hrun] at hok; cases hok
  | ok table => exact ⟨hfile, hids, table, rfl, (ofFile_follows_scoping _ hfile hids).2.1 _ hrun⟩

end SymbolTable

end BindingIdl
