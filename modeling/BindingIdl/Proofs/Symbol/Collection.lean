import BindingIdl.Proofs.Symbol.History
import BindingIdl.Proofs.Symbol.Names
import BindingIdl.Symbol.Resolution

/-!
# What collecting records

Collecting tells a table of one declaration after another, so what is known of tables and their
histories holds of it. `collect_cases` is the run of the collection: the table reflects what has
been seen as long as no path is defined twice, and the first path that is ends it.
`SymbolTable.Records ds table` says the same of a table for those who look names up: one symbol for
each path, which is defined as soon as one of the declarations `ds` has a body.

Paths are compared by their texts here, as the table does; that identifiers make the texts as good
as the paths is used only where it is needed.
-/

namespace BindingIdl

/-! ## What a file declares -/

/-- The path of a declaration is made of its scope and its name. -/
def Scoped.path (d : Scoped Declaration) : QualifiedName := ⟨d.scope, d.decl.name⟩

namespace Declaration

/-- Whether the declaration has a body. -/
def isDefinition : Declaration → Bool
  | definition _ => true
  | forward _ => false

/-- The paths of the classes with a body. -/
def definedPaths (ds : List (Scoped Declaration)) : List QualifiedName :=
  (ds.filter (·.decl.isDefinition)).map Scoped.path

/-- The paths of the forward declarations. -/
def forwardPaths (ds : List (Scoped Declaration)) : List QualifiedName :=
  (ds.filter (!·.decl.isDefinition)).map Scoped.path

theorem mem_definedPaths {ds : List (Scoped Declaration)} {q : QualifiedName} :
    q ∈ definedPaths ds ↔ ∃ d ∈ ds, d.decl.isDefinition = true ∧ d.path = q := by
  simp [definedPaths, and_assoc]

theorem mem_forwardPaths {ds : List (Scoped Declaration)} {q : QualifiedName} :
    q ∈ forwardPaths ds ↔ ∃ d ∈ ds, d.decl.isDefinition = false ∧ d.path = q := by
  simp [forwardPaths, and_assoc]

/-- What is declared is defined or forward declared. -/
theorem mem_definedPaths_or_forwardPaths {ds : List (Scoped Declaration)} {q : QualifiedName} :
    q ∈ definedPaths ds ∨ q ∈ forwardPaths ds ↔ ∃ d ∈ ds, d.path = q := by
  rw [mem_definedPaths, mem_forwardPaths]
  constructor
  · rintro (⟨d, hd, -, hq⟩ | ⟨d, hd, -, hq⟩) <;> exact ⟨d, hd, hq⟩
  · rintro ⟨d, hd, hq⟩
    cases hkind : d.decl.isDefinition with
    | true => exact .inl ⟨d, hd, hkind, hq⟩
    | false => exact .inr ⟨d, hd, hkind, hq⟩

/-- No two classes with a body have paths of the same text. -/
def Distinct (ds : List (Scoped Declaration)) : Prop :=
  ds.Pairwise fun d e => d.decl.isDefinition = true → e.decl.isDefinition = true →
    d.path.text ≠ e.path.text

/-- For paths of identifiers it is the same to compare texts and to compare paths. -/
theorem distinct_iff_nodup {ds : List (Scoped Declaration)} (h : ∀ d ∈ ds, d.path.Wellformed) :
    Distinct ds ↔ (definedPaths ds).Nodup := by
  rw [Distinct, definedPaths, List.Nodup, List.pairwise_map, List.pairwise_filter]
  refine List.Pairwise.iff_of_mem fun {d e} hd he => ?_
  refine imp_congr_right fun _ => imp_congr_right fun _ => not_congr ?_
  exact ⟨QualifiedName.text_injective (h d hd) (h e he), congrArg QualifiedName.text⟩

end Declaration

open Declaration Announcement

theorem Declaration.kind_eq_defined_iff {d : Declaration} :
    SymbolKind.ofDeclaration d = .defined ↔ d.isDefinition = true := by
  cases d <;> simp [SymbolKind.ofDeclaration, isDefinition]

/-- What a table is told of a declaration. -/
def Scoped.announcement (d : Scoped Declaration) : Announcement :=
  ⟨d.path, .ofDeclaration d.decl, d.decl.id, d.decl.span⟩

namespace SymbolTable

variable {table : SymbolTable} {ds : List (Scoped Declaration)} {d : Scoped Declaration}

/-! ## What a table knows -/

/-- What a table knows once some declarations have been seen. -/
structure Records (ds : List (Scoped Declaration)) (table : SymbolTable) : Prop where
  consistent : table.Consistent
  known : ∀ d ∈ ds, ∃ id s, table.symbol? id = some s ∧ s.key = d.path.text
  declared : ∀ id s, table.symbol? id = some s → ∃ d ∈ ds, d.path = s.path
  defined : ∀ id s, table.symbol? id = some s →
    (s.kind = .defined ↔ ∃ d ∈ ds, d.decl.isDefinition = true ∧ d.path.text = s.key)

/-- A table has been told of some declarations, and of nothing else. -/
abbrev ReflectsAll (ds : List (Scoped Declaration)) (table : SymbolTable) : Prop :=
  Reflects (ds.map Scoped.announcement) table

/-- A symbol is defined once one of the declarations of its path is. -/
theorem Reflects.defined_iff (h : ReflectsAll ds table) {id : Nat} {s : Symbol}
    (hs : table.symbol? id = some s) :
    s.kind = .defined ↔ ∃ d ∈ ds, d.decl.isDefinition = true ∧ d.path.text = s.key := by
  obtain ⟨a, ha, hkind, -⟩ := (h.told id s hs).rest
  rw [hkind, kind_of_deciding? ha]
  constructor
  · rintro ⟨_, hmem, hkey, hdefined⟩
    obtain ⟨d, hd, rfl⟩ := List.mem_map.mp hmem
    exact ⟨d, hd, kind_eq_defined_iff.mp hdefined, hkey⟩
  · rintro ⟨d, hd, hdefined, hkey⟩
    exact ⟨d.announcement, List.mem_map_of_mem hd, hkey, kind_eq_defined_iff.mpr hdefined⟩

/-- What a table that reflects its announcements answers about the declarations behind them. -/
theorem Reflects.records (h : ReflectsAll ds table) : Records ds table where
  consistent := h.consistent
  known d hd := h.known _ (List.mem_map_of_mem hd)
  declared id s hs := by
    obtain ⟨a, ha, hpath⟩ := (h.told id s hs).path
    obtain ⟨d, hd, rfl⟩ := List.mem_map.mp (of_first? ha).1
    exact ⟨d, hd, hpath.symm⟩
  defined id s hs := h.defined_iff hs

/-- What `declare` finds under the path of a declaration. -/
theorem Records.lookup_cases (h : Records ds table) (q : QualifiedName) :
    (table.lookup q.text = none ∧ ∀ d ∈ ds, d.path.text ≠ q.text) ∨
    ∃ id s, table.lookup q.text = some id ∧ table.symbol? id = some s ∧ s.key = q.text := by
  cases hfound : table.lookup q.text with
  | none =>
    refine .inl ⟨rfl, fun d hd hsame => ?_⟩
    obtain ⟨id, s, hs, hkey⟩ := h.known d hd
    exact h.consistent.lookup_eq_none_iff.mp hfound id s hs (hkey.trans hsame)
  | some id =>
    obtain ⟨s, hs, hkey⟩ := h.consistent.lookup_eq_some hfound
    exact .inr ⟨id, s, rfl, hs, hkey⟩

/-! ## One step -/

/-- Whether a declaration defines a class that is already defined. -/
def Repeats (ds : List (Scoped Declaration)) (d : Scoped Declaration) : Prop :=
  d.decl.isDefinition = true ∧ ∃ e ∈ ds, e.decl.isDefinition = true ∧ e.path.text = d.path.text

/-- Collecting goes on with the table that has been told of the declaration. -/
theorem collectOne_of_ok {id : Nat} (h : (table.announce d.announcement).1 = .ok id) :
    table.collectOne d = .ok (table.tell d.announcement) := by
  have hrun : table.enter d.path (.ofDeclaration d.decl) d.decl.id d.decl.span =
      (.ok id, table.tell d.announcement) := Prod.ext h rfl
  rw [Scoped.path] at hrun
  simp only [collectOne, declare, hrun]

/-- A refusal is reported at the declaration, with the place of the symbol that stands in its
way. -/
theorem collectOne_of_error {id : Nat} (h : (table.announce d.announcement).1 = .error id) :
    table.collectOne d = .error (.about d.decl.span (.duplicateClass d.path
      (((table.symbol? id).map Symbol.span).getD default).extent)) := by
  have hrun : table.enter d.path (.ofDeclaration d.decl) d.decl.id d.decl.span =
      (.error id, table.tell d.announcement) := Prod.ext h rfl
  rw [Scoped.path] at hrun ⊢
  simp only [collectOne, declare, hrun]

/-- A second definition is refused, and what is said names a declaration before it. -/
theorem collectOne_of_repeats (h : ReflectsAll ds table) (hd : Repeats ds d) :
    ∃ first ∈ ds, table.collectOne d =
      .error (.about d.decl.span (.duplicateClass d.path first.decl.span.extent)) := by
  obtain ⟨hdefined, e, he, hedefined, hsame⟩ := hd
  obtain ⟨id, s, hs, hkey⟩ := h.known _ (List.mem_map_of_mem he)
  have hclash : (table.announce d.announcement).1 = .error id := by
    refine h.consistent.announce_eq_error_iff.mpr ⟨kind_eq_defined_iff.mpr hdefined, ?_, s, hs, ?_⟩
    · exact (h.consistent.lookup _ _).mpr ⟨s, hs, hkey.trans hsame⟩
    · exact (h.defined_iff hs).mpr ⟨e, he, hedefined, hkey.symm⟩
  obtain ⟨a, ha, -, -, hspan⟩ := (h.told id s hs).rest
  obtain ⟨first, hfirst, rfl⟩ := List.mem_map.mp (of_deciding? ha).1
  refine ⟨first, hfirst, ?_⟩
  have hearlier : ((table.symbol? id).map Symbol.span).getD default = first.decl.span := by
    rw [hs]
    exact hspan
  rw [collectOne_of_error hclash, hearlier]

/-- Anything else is recorded. -/
theorem collectOne_of_not_repeats (h : ReflectsAll ds table) (hd : ¬ Repeats ds d) :
    table.collectOne d = .ok (table.tell d.announcement) := by
  cases hanswer : (table.announce d.announcement).1 with
  | ok id => exact collectOne_of_ok hanswer
  | error id =>
    obtain ⟨hkind, hid, s, hs, hdefined⟩ := h.consistent.announce_eq_error_iff.mp hanswer
    obtain ⟨e, he, hedefined, hsame⟩ := (h.defined_iff hs).mp hdefined
    obtain ⟨t, ht, hkey⟩ := h.consistent.lookup_eq_some hid
    obtain rfl := Option.some.inj (hs.symm.trans ht)
    exact absurd ⟨kind_eq_defined_iff.mp hkind, e, he, hedefined, hsame.trans hkey⟩ hd

/-! ## A whole run -/

/-- One more declaration keeps them distinct unless it repeats one of them. -/
theorem distinct_concat_iff : Distinct (ds ++ [d]) ↔ Distinct ds ∧ ¬ Repeats ds d := by
  simp only [Distinct, Repeats, List.pairwise_append, List.pairwise_singleton, true_and,
    List.mem_singleton, forall_eq, not_and, not_exists]
  exact and_congr_right fun _ =>
    ⟨fun h hd e he hedef => h e he hedef hd, fun h e he hedef hd => h hd e he hedef⟩

/-- Collecting goes on as long as no class is defined twice, and fails with the first that is; the
diagnostic then names a declaration before it. -/
theorem collect_cases (h : ReflectsAll ds table) (hds : Distinct ds)
    (rest : List (Scoped Declaration)) :
    (Distinct (ds ++ rest) ∧ ∃ table', rest.foldlM collectOne table = .ok table' ∧
      ReflectsAll (ds ++ rest) table' ∧ table'.references = table.references) ∨
    (¬ Distinct (ds ++ rest) ∧ ∃ before d after, ds ++ rest = before ++ d :: after ∧
      ∃ first ∈ before, rest.foldlM collectOne table =
        .error (.about d.decl.span (.duplicateClass d.path first.decl.span.extent))) := by
  induction rest generalizing ds table with
  | nil => exact .inl ⟨by simpa using hds, table, rfl, by simpa using h, rfl⟩
  | cons d rest ih =>
    -- either this declaration is the first to clash, or it joins those that are distinct
    by_cases hd : Repeats ds d
    · obtain ⟨first, hfirst, herror⟩ := collectOne_of_repeats h hd
      refine .inr ⟨fun hdistinct => ?_, ds, d, rest, rfl, first, hfirst, ?_⟩
      · have hsub : (ds ++ [d]).Sublist (ds ++ d :: rest) := by simp
        exact (distinct_concat_iff.mp (hdistinct.sublist hsub)).2 hd
      · rw [List.foldlM_cons, herror]
        rfl
    · have run : (d :: rest).foldlM collectOne table =
          rest.foldlM collectOne (table.tell d.announcement) := by
        rw [List.foldlM_cons, collectOne_of_not_repeats h hd]
        rfl
      have hcons : ds ++ d :: rest = ds ++ [d] ++ rest := by simp
      have hnext : ReflectsAll (ds ++ [d]) (table.tell d.announcement) := by
        rw [ReflectsAll, List.map_append]
        exact h.tell d.announcement
      rw [run, hcons, ← references_tell h.consistent d.announcement]
      exact ih hnext (distinct_concat_iff.mpr ⟨hds, hd⟩)

end SymbolTable

end BindingIdl
