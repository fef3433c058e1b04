import BindingIdl.Proofs.Symbol.Collection
import Mathlib.Data.List.Infix

/-!
# The scoping rule

`Denotes defined forward scope name path` states the rule over two lists of paths: a qualified name
is taken from the root, a bare one from the nearest namespace around it that has it, and a qualified
name that nothing else explains is trusted where its last segment is a root stub. There is no table
in it and no order of search.

`SymbolTable.resolve?` follows the rule in a table that records a file, see `Records.answers`.
-/

namespace BindingIdl

/-- What a name means inside a scope, where classes with the paths in `defined` have a body and
those in `forward` are forward declared. -/
inductive Denotes (defined forward : List QualifiedName) (scope : List String) :
    QualifiedName → QualifiedName → Prop where
  | absolute {q} : q.isQualified = true → q ∈ defined ∨ q ∈ forward →
      Denotes defined forward scope q q
  | rescued {q} : q.isQualified = true → .bare q.name ∈ forward → .bare q.name ∉ defined →
      Denotes defined forward scope q q
  /-- No longer stretch of the scope would do. -/
  | enclosing {name spaces} : spaces <+: scope →
      ⟨spaces, name⟩ ∈ defined ∨ ⟨spaces, name⟩ ∈ forward →
      (∀ longer, longer <+: scope → spaces.length < longer.length →
        ¬ (⟨longer, name⟩ ∈ defined ∨ ⟨longer, name⟩ ∈ forward)) →
      Denotes defined forward scope (.bare name) ⟨spaces, name⟩

namespace Denotes

variable {defined forward : List QualifiedName} {scope : List String} {name p q : QualifiedName}

/-- A qualified name denotes its own path, which is declared or is trusted for the sake of a root
stub. -/
theorem qualified_iff (hname : name.isQualified = true) :
    Denotes defined forward scope name p ↔ p = name ∧ ((name ∈ defined ∨ name ∈ forward) ∨
      (.bare name.name ∈ forward ∧ .bare name.name ∉ defined)) := by
  constructor
  · intro h
    cases h with
    | absolute _ hknown => exact ⟨rfl, .inl hknown⟩
    | rescued _ hforward hdefined => exact ⟨rfl, .inr ⟨hforward, hdefined⟩⟩
    | enclosing => exact absurd hname (by simp [QualifiedName.isQualified, QualifiedName.bare])
  · rintro ⟨rfl, hknown | ⟨hforward, hdefined⟩⟩
    · exact .absolute hname hknown
    · exact .rescued hname hforward hdefined

/-- A bare name denotes the innermost class of that name. -/
theorem bare_iff {last : String} :
    Denotes defined forward scope (.bare last) p ↔ ∃ spaces, p = ⟨spaces, last⟩ ∧ spaces <+: scope ∧
      (⟨spaces, last⟩ ∈ defined ∨ ⟨spaces, last⟩ ∈ forward) ∧
      ∀ longer, longer <+: scope → spaces.length < longer.length →
        ¬ (⟨longer, last⟩ ∈ defined ∨ ⟨longer, last⟩ ∈ forward) := by
  constructor
  · intro h
    generalize hbare : QualifiedName.bare last = name at h
    cases h with
    | absolute hq => subst hbare; cases hq
    | rescued hq => subst hbare; cases hq
    | @enclosing last' spaces hspaces hknown hlongest =>
      obtain rfl : last = last' := congrArg QualifiedName.name hbare
      exact ⟨spaces, rfl, hspaces, hknown, hlongest⟩
  · rintro ⟨spaces, rfl, hspaces, hknown, hlongest⟩
    exact .enclosing hspaces hknown hlongest

/-- A name means one thing at most. -/
theorem unique (h : Denotes defined forward scope name p)
    (h' : Denotes defined forward scope name q) : p = q := by
  cases hname : name.isQualified with
  | true => rw [((qualified_iff hname).mp h).1, ((qualified_iff hname).mp h').1]
  | false =>
    rw [name.eq_bare hname] at h h'
    obtain ⟨ps, rfl, hps, hknown, hlongest⟩ := bare_iff.mp h
    obtain ⟨qs, rfl, hqs, hknown', hlongest'⟩ := bare_iff.mp h'
    have hle : ps.length ≤ qs.length := by
      by_contra hlt
      exact hlongest' ps hps (by omega) hknown
    have hge : qs.length ≤ ps.length := by
      by_contra hlt
      exact hlongest qs hqs (by omega) hknown'
    rw [List.IsPrefix.eq_of_length (List.prefix_of_prefix_length_le hps hqs hle) (by omega)]

/-- What is denoted is at a known path, unless the name is taken on trust. -/
theorem known_or_rescued (h : Denotes defined forward scope name p) :
    (p ∈ defined ∨ p ∈ forward) ∨
      (p.isQualified = true ∧ .bare p.name ∈ forward ∧ .bare p.name ∉ defined) := by
  cases h with
  | absolute _ hknown => exact .inl hknown
  | rescued hq hforward hdefined => exact .inr ⟨hq, hforward, hdefined⟩
  | enclosing _ hknown => exact .inl hknown

/-- What a name denotes is well formed, since it is made of the name and of the scope. -/
theorem wellformed (h : Denotes defined forward scope name p) (hname : name.Wellformed)
    (hscope : ∀ s ∈ scope, isIdentifier s = true) : p.Wellformed := by
  cases h with
  | absolute => exact hname
  | rescued => exact hname
  | enclosing hspaces =>
    exact QualifiedName.wellformed_mk_iff.mpr
      ⟨fun s hs => hscope s (hspaces.subset hs), hname.name⟩

/-- What a name denotes denotes itself, whether or not defined classes are forward declared too. -/
theorem self {defined' forward' : List QualifiedName} (h : Denotes defined forward scope name p)
    (hdefined : ∀ q, q ∈ defined' ↔ q ∈ defined)
    (hforward : ∀ q, q ∉ defined → (q ∈ forward' ↔ q ∈ forward)) :
    Denotes defined' forward' scope p p := by
  have hknown (q : QualifiedName) : q ∈ defined' ∨ q ∈ forward' ↔ q ∈ defined ∨ q ∈ forward := by
    rw [hdefined]
    by_cases hq : q ∈ defined
    · simp [hq]
    · rw [hforward q hq]
  cases h with
  | absolute hq hmem => exact .absolute hq ((hknown _).mpr hmem)
  | rescued hq hmem hnot =>
    exact .rescued hq ((hforward _ hnot).mpr hmem) fun hmem' => hnot ((hdefined _).mp hmem')
  | @enclosing name spaces hspaces hmem hlongest =>
    cases spaces with
    | nil =>
      -- the root is the only place where a bare path is written bare
      exact .enclosing hspaces ((hknown _).mpr hmem) fun longer hlonger hlt hmem' =>
        hlongest longer hlonger hlt ((hknown _).mp hmem')
    | cons => exact .absolute rfl ((hknown _).mpr hmem)

end Denotes

/-! ## The scopes around a scope -/

theorem enclosingScopes_concat (scope : List String) (s : String) :
    enclosingScopes (scope ++ [s]) = (scope ++ [s]) :: enclosingScopes scope := by
  have hrest : (List.range (scope.length + 1)).reverse.map (scope ++ [s]).take =
      (List.range (scope.length + 1)).reverse.map scope.take := by
    refine List.map_congr_left fun k hk => List.take_append_of_le_length ?_
    rw [List.mem_reverse, List.mem_range] at hk
    omega
  rw [enclosingScopes, enclosingScopes, List.length_append, List.length_singleton,
    List.range_succ, List.reverse_append, List.reverse_singleton, List.singleton_append,
    List.map_cons, hrest, List.take_of_length_le (by simp)]

/-- The scopes around are the beginnings of the scope. -/
theorem mem_enclosingScopes {scope spaces : List String} :
    spaces ∈ enclosingScopes scope ↔ spaces <+: scope := by
  induction scope using List.reverseRecOn with
  | nil => simp [enclosingScopes]
  | append_singleton scope s ih =>
    rw [enclosingScopes_concat, List.mem_cons, ih, List.prefix_concat_iff]

/-- The search through the enclosing scopes ends at the longest that has an answer. -/
theorem findSome?_enclosingScopes {α : Type} {f : List String → Option α} {a : α}
    {scope : List String} (h : (enclosingScopes scope).findSome? f = some a) :
    ∃ spaces, spaces <+: scope ∧ f spaces = some a ∧
      ∀ longer, longer <+: scope → spaces.length < longer.length → f longer = none := by
  induction scope using List.reverseRecOn with
  | nil =>
    have hroot : f [] = some a := by simpa [enclosingScopes] using h
    refine ⟨[], List.prefix_rfl, hroot, fun longer hlonger hlt => ?_⟩
    rw [List.prefix_nil.mp hlonger] at hlt
    exact absurd hlt (Nat.lt_irrefl _)
  | append_singleton scope s ih =>
    rw [enclosingScopes_concat, List.findSome?_cons] at h
    cases hhere : f (scope ++ [s]) with
    | some b =>
      rw [hhere] at h
      refine ⟨scope ++ [s], List.prefix_rfl, by rw [hhere]; exact h, fun longer hlonger hlt => ?_⟩
      have := hlonger.length_le
      omega
    | none =>
      rw [hhere] at h
      obtain ⟨spaces, hspaces, hfound, hlongest⟩ := ih h
      refine ⟨spaces, hspaces.trans (List.prefix_append _ _), hfound, fun longer hlonger hlt => ?_⟩
      obtain rfl | hlonger := List.prefix_concat_iff.mp hlonger
      · exact hhere
      · exact hlongest longer hlonger hlt

/-! ## What the table finds -/

namespace SymbolTable

open Declaration

variable {ds : List (Scoped Declaration)} {table : SymbolTable} {scope : List String}
  {name q : QualifiedName}

/-- Among identifiers, looking up a text is looking up the path. -/
theorem Records.lookup_path (h : Records ds table) (hds : ∀ d ∈ ds, d.path.Wellformed)
    (hq : q.Wellformed) :
    (table.lookup q.text = none ∧ ¬ (q ∈ definedPaths ds ∨ q ∈ forwardPaths ds)) ∨
    ∃ id s, table.lookup q.text = some id ∧ table.symbol? id = some s ∧ s.path = q ∧
      (q ∈ definedPaths ds ∨ q ∈ forwardPaths ds) ∧
      (s.isForwardOnly = true ↔ q ∉ definedPaths ds) := by
  rw [mem_definedPaths_or_forwardPaths]
  obtain ⟨hnone, hunseen⟩ | ⟨id, s, hid, hs, hkey⟩ := h.lookup_cases q
  · refine .inl ⟨hnone, ?_⟩
    rintro ⟨d, hd, rfl⟩
    exact hunseen d hd rfl
  · obtain ⟨d, hd, hpath⟩ := h.declared id s hs
    have hsame : d.path = q := by
      refine QualifiedName.text_injective (hds d hd) hq ?_
      rw [hpath]
      exact hkey
    have hdefined : s.kind = .defined ↔ q ∈ definedPaths ds := by
      rw [h.defined id s hs, hkey, mem_definedPaths]
      constructor
      · rintro ⟨e, he, hedef, htext⟩
        exact ⟨e, he, hedef, QualifiedName.text_injective (hds e he) hq htext⟩
      · rintro ⟨e, he, hedef, rfl⟩
        exact ⟨e, he, hedef, rfl⟩
    refine .inr ⟨id, s, hid, hs, hpath ▸ hsame, ⟨d, hd, hsame⟩, ?_⟩
    rw [← hdefined]
    cases hkind : s.kind <;> simp [Symbol.isForwardOnly, hkind]

/-- A root stub is a class that is forward declared outside any namespace and nowhere defined. -/
theorem Records.rootStub_isSome_iff (h : Records ds table) (hds : ∀ d ∈ ds, d.path.Wellformed)
    {n : String} (hn : isIdentifier n = true) :
    (table.rootStub n).isSome = true ↔ .bare n ∈ forwardPaths ds ∧ .bare n ∉ definedPaths ds := by
  have hwell : (QualifiedName.bare n).Wellformed := by
    simpa [QualifiedName.Wellformed, QualifiedName.segments, QualifiedName.bare] using hn
  rw [h.consistent.rootStub_eq_filter, ← QualifiedName.text_bare n]
  obtain ⟨hnone, hunknown⟩ | ⟨id, s, hid, hs, hpath, hknown, hforward⟩ := h.lookup_path hds hwell
  · simp only [hnone, Option.filter_none, Option.isSome_none, Bool.false_eq_true, false_iff]
    exact fun hforward => hunknown (.inr hforward.1)
  · have hroot : s.isRootStub = true ↔ .bare n ∉ definedPaths ds := by
      rw [← hforward, Symbol.isRootStub, hpath]
      simp [QualifiedName.bare]
    have hfilter : ((some id).filter fun id => (table.symbol? id).any Symbol.isRootStub).isSome =
        s.isRootStub := by
      cases hstub : s.isRootStub <;> simp [Option.filter, hs, hstub]
    rw [hid, hfilter, hroot]
    constructor
    · exact fun hdefined => ⟨hknown.resolve_left hdefined, hdefined⟩
    · exact And.right

/-- The right answer to what a name means, where `ds` is declared: what the name denotes, or nothing
if it denotes nothing. -/
def Answers (ds : List (Scoped Declaration)) (scope : List String) (name : QualifiedName) :
    Option Reference → Prop
  | some r => Denotes (definedPaths ds) (forwardPaths ds) scope name r.path ∧
      (r.external = true ↔ r.path ∉ definedPaths ds)
  | none => ∀ p, ¬ Denotes (definedPaths ds) (forwardPaths ds) scope name p

/-- The table answers a qualified name with the index of paths first, and with that of root stubs
where it has nothing. -/
theorem Records.answers_qualified (h : Records ds table) (hds : ∀ d ∈ ds, d.path.Wellformed)
    (hname : name.Wellformed) (hq : name.isQualified = true) :
    Answers ds scope name (table.resolve? scope name) := by
  -- what is qualified is not searched for in the scopes around
  have hcandidates : name.candidates scope = [name] := by rw [QualifiedName.candidates, if_pos hq]
  obtain ⟨hnone, hunknown⟩ | ⟨id, s, hid, hs, hpath, hknown, hforward⟩ := h.lookup_path hds hname
  · have hstub := h.rootStub_isSome_iff hds hname.name
    cases hroot : table.rootStub name.name with
    | some id =>
      have hfound : table.resolve? scope name = some ⟨id, name, true⟩ := by
        simp [resolve?, hcandidates, hnone, hroot]
      obtain ⟨hforward, hdefined⟩ := hstub.mp (by rw [hroot]; rfl)
      rw [hfound]
      refine ⟨.rescued hq hforward hdefined, ?_⟩
      simpa using fun hdefined => hunknown (.inl hdefined)
    | none =>
      have hfound : table.resolve? scope name = none := by
        simp [resolve?, hcandidates, hnone, hroot]
      rw [hfound]
      intro p hp
      obtain ⟨-, hknown | hrescued⟩ := (Denotes.qualified_iff hq).mp hp
      · exact hunknown hknown
      · have := hstub.mpr hrescued
        rw [hroot] at this
        cases this
  · have hfound : table.resolve? scope name = some ⟨id, s.path, s.isForwardOnly⟩ := by
      simp [resolve?, hcandidates, hid, hs]
    rw [hfound, hpath]
    exact ⟨.absolute hq hknown, hforward⟩

/-- By induction on the scopes around, the innermost first. -/
theorem Records.answers_bare (h : Records ds table) (hds : ∀ d ∈ ds, d.path.Wellformed)
    {n : String} (hn : isIdentifier n = true) (hscope : ∀ s ∈ scope, isIdentifier s = true) :
    Answers ds scope (.bare n) (table.resolve? scope (.bare n)) := by
  have hcandidate {spaces : List String} (hspaces : spaces <+: scope) :
      QualifiedName.Wellformed ⟨spaces, n⟩ :=
    QualifiedName.wellformed_mk_iff.mpr ⟨fun s hs => hscope s (hspaces.subset hs), hn⟩
  -- the candidates of a bare name are the scopes around it, the innermost first
  have hsearch : (QualifiedName.candidates (.bare n) scope).findSome? (table.lookup ·.text) =
      (enclosingScopes scope).findSome? fun p => table.lookup (QualifiedName.text ⟨p, n⟩) := by
    have hbare : (QualifiedName.bare n).isQualified = false := rfl
    rw [QualifiedName.candidates, if_neg (by rw [hbare]; decide), List.findSome?_map]
    rfl
  cases hfound : (enclosingScopes scope).findSome?
      fun p => table.lookup (QualifiedName.text ⟨p, n⟩) with
  | some id =>
    obtain ⟨spaces, hspaces, hid, hlongest⟩ := findSome?_enclosingScopes hfound
    obtain ⟨hnone, -⟩ | ⟨id', s, hid', hs, hpath, hknown, hforward⟩ :=
      h.lookup_path hds (hcandidate hspaces)
    · rw [hnone] at hid
      cases hid
    · obtain rfl : id' = id := Option.some.inj (hid'.symm.trans hid)
      have hresolve : table.resolve? scope (.bare n) = some ⟨id', s.path, s.isForwardOnly⟩ := by
        rw [resolve?, hsearch, hfound]
        simp [hs]
      rw [hresolve, hpath]
      refine ⟨.enclosing hspaces hknown fun longer hlonger hlt hlonger_known => ?_, hforward⟩
      obtain ⟨-, hunknown⟩ | ⟨_, _, hsome, -⟩ := h.lookup_path hds (hcandidate hlonger)
      · exact hunknown hlonger_known
      · rw [hlongest longer hlonger hlt] at hsome
        cases hsome
  | none =>
    have hnone {spaces : List String} (hspaces : spaces <+: scope) :
        table.lookup (QualifiedName.text ⟨spaces, n⟩) = none :=
      List.findSome?_eq_none_iff.mp hfound spaces (mem_enclosingScopes.mpr hspaces)
    -- the root is one of the scopes, so the root stub that is asked for last is not there either
    have hlookup : table.lookup n = none := hnone List.nil_prefix
    have hresolve : table.resolve? scope (.bare n) = none := by
      rw [resolve?, hsearch, hfound]
      simp [QualifiedName.bare, h.consistent.rootStub_eq_filter, hlookup]
    rw [hresolve]
    intro p hp
    obtain ⟨spaces, -, hspaces, hknown, -⟩ := Denotes.bare_iff.mp hp
    obtain ⟨-, hunknown⟩ | ⟨_, _, hsome, -⟩ := h.lookup_path hds (hcandidate hspaces)
    · exact hunknown hknown
    · rw [hnone hspaces] at hsome
      cases hsome

/-- A name is found exactly when it denotes something, and what is found is what it denotes. -/
theorem Records.answers (h : Records ds table) (hds : ∀ d ∈ ds, d.path.Wellformed)
    (hname : name.Wellformed) (hscope : ∀ s ∈ scope, isIdentifier s = true) :
    Answers ds scope name (table.resolve? scope name) := by
  cases hq : name.isQualified with
  | true => exact h.answers_qualified hds hname hq
  | false =>
    rw [name.eq_bare hq]
    exact h.answers_bare hds hname.name hscope

end SymbolTable

end BindingIdl
