import BindingIdl.Symbol

/-!
# The indexes of a table

A table keeps its classes in a list and finds them through two indexes: one by the text of the path,
one by name for the root stubs. The first is only ever added to. The second is added to when a class
is first forward declared, and taken from when it is defined later, by the path that it was first
declared with and not by that of the definition.

`SymbolTable.Consistent` says that both indexes are what the list says. `announce_cases` lists what
one declaration can do to a table that is consistent, `Consistent.tell` is the step and
`consistent_after` the run. So the indexes can be forgotten: a lookup is a search through the list
(`Consistent.lookup_eq_findIdx?`), and a root stub is what is looked up under its name, if that is a
root stub (`Consistent.rootStub_eq_filter`).
-/

namespace BindingIdl

/-- The text of the path, under which a symbol is told apart from others. -/
def Symbol.key (s : Symbol) : String := s.path.text

@[simp] theorem Symbol.key_define (s : Symbol) (node : NodeId) (span : Span) :
    (s.define node span).key = s.key := rfl

/-- A root stub is forward declared and has no namespaces. -/
theorem Symbol.isRootStub_iff {s : Symbol} :
    s.isRootStub = true ↔ s.kind = .forwardOnly ∧ s.path.namespaces = [] := by
  simp [isRootStub, isForwardOnly]

/-- A path without namespaces is written as its name. -/
theorem Symbol.key_of_namespaces {s : Symbol} (h : s.path.namespaces = []) :
    s.key = s.path.name := by
  rw [key, QualifiedName.text, h, List.foldr_nil]

/-- What a table is told of a class. -/
structure Announcement where
  path : QualifiedName
  kind : SymbolKind
  node : NodeId
  span : Span
deriving DecidableEq, Repr

namespace Announcement

/-- The text of the path, under which the class is told apart from others. -/
def key (a : Announcement) : String := a.path.text

/-- The symbol of a class that nothing else has been said of. -/
def symbol (a : Announcement) : Symbol := ⟨a.path, a.kind, a.node, a.span⟩

end Announcement

namespace SymbolTable

variable {table base next : SymbolTable} {a : Announcement} {s t old : Symbol} {id place : Nat}
  {k name : String} {node : NodeId} {span : Span}

/-! ## What is found after a step -/

/-- A symbol that is added comes last. -/
theorem symbol?_add : (table.add s).symbol? id = some t ↔
    table.symbol? id = some t ∨ (id = table.symbols.length ∧ t = s) := by
  rw [symbol?, symbol?, add, List.getElem?_append]
  by_cases hid : id < table.symbols.length
  · have hne : id ≠ table.symbols.length := by omega
    simp [hid, hne]
  · have hlast : id - table.symbols.length = 0 ↔ id = table.symbols.length := by omega
    simp [hid, List.getElem?_singleton, hlast, eq_comm]

/-- A symbol that is defined changes in its place, and the others stay as they are. -/
theorem symbol?_define : (table.define place old node span).symbol? id = some t ↔
    ∃ s, table.symbol? id = some s ∧ t = if place = id then s.define node span else s := by
  rw [symbol?, symbol?, define, List.getElem?_modify]
  simp [Option.map_eq_some_iff, @eq_comm _ t]

/-- A new symbol is found under its own path, and every other path leads where it led. -/
theorem lookup_add : (table.add s).lookup k =
    if s.key = k then some table.symbols.length else table.lookup k := by
  rw [lookup, lookup, add, Symbol.key, Std.TreeMap.getElem?_insert]
  simp only [Std.LawfulEqCmp.compare_eq_iff_eq]

/-- To define a class leaves its key alone. -/
theorem lookup_define : (table.define place old node span).lookup k = table.lookup k := rfl

/-- A new root stub is found under its name, and every other name leads where it led. -/
theorem rootStub_add : (table.add s).rootStub name =
    if s.isRootStub = true ∧ s.path.name = name then some table.symbols.length
    else table.rootStub name := by
  cases hstub : s.isRootStub <;> simp [rootStub, add, hstub, Std.TreeMap.getElem?_insert]

/-- To define a class retires the root stub of the path it was first declared with. -/
theorem rootStub_define : (table.define place old node span).rootStub name =
    if old.path.namespaces = [] ∧ old.path.name = name then none else table.rootStub name := by
  cases hroot : old.path.namespaces <;> simp [rootStub, define, hroot, Std.TreeMap.getElem?_erase]

/-! ## Consistent tables -/

/-- The indexes of a table say what its list of symbols says: there is one symbol for each key, and
the root stubs are the symbols that are only forward declared, by a path without namespaces. -/
structure Consistent (table : SymbolTable) : Prop where
  size : table.size = table.symbols.length
  lookup : ∀ k id, table.lookup k = some id ↔ ∃ s, table.symbol? id = some s ∧ s.key = k
  rootStub : ∀ name id, table.rootStub name = some id ↔ ∃ s, table.symbol? id = some s ∧
    s.kind = .forwardOnly ∧ s.path.namespaces = [] ∧ s.path.name = name

/-- Without symbols no index has an entry. -/
theorem consistent_empty : Consistent empty where
  size := rfl
  lookup k id := by simp [SymbolTable.lookup, symbol?, empty]
  rootStub name id := by simp [SymbolTable.rootStub, symbol?, empty]

/-- The same classes, in the list as in the indexes. -/
structure SameClasses (table base : SymbolTable) : Prop where
  symbols : table.symbols = base.symbols
  byPath : table.byPath = base.byPath
  rootStubs : table.rootStubs = base.rootStubs

namespace SameClasses

theorem refl (table : SymbolTable) : table.SameClasses table := ⟨rfl, rfl, rfl⟩

theorem trans {other : SymbolTable} (h : table.SameClasses base) (h' : base.SameClasses other) :
    table.SameClasses other :=
  ⟨h.symbols.trans h'.symbols, h.byPath.trans h'.byPath, h.rootStubs.trans h'.rootStubs⟩

/-- A reference is no class. -/
theorem record (h : table.SameClasses base) (node : NodeId) (reference : Reference) :
    (table.record node reference).SameClasses base := ⟨h.symbols, h.byPath, h.rootStubs⟩

theorem symbol?_eq (h : table.SameClasses base) (id : ClassId) :
    table.symbol? id = base.symbol? id := by
  rw [symbol?, symbol?, h.symbols]

theorem lookup_eq (h : table.SameClasses base) (k : String) : table.lookup k = base.lookup k := by
  rw [lookup, lookup, h.byPath]

theorem rootStub_eq (h : table.SameClasses base) (name : String) :
    table.rootStub name = base.rootStub name := by
  rw [rootStub, rootStub, h.rootStubs]

end SameClasses

namespace Consistent

theorem congr (h : base.Consistent) (hsame : table.SameClasses base) : table.Consistent where
  size := by rw [SymbolTable.size, hsame.byPath, hsame.symbols, ← h.size, SymbolTable.size]
  lookup := by simpa only [hsame.lookup_eq, hsame.symbol?_eq] using h.lookup
  rootStub := by simpa only [hsame.rootStub_eq, hsame.symbol?_eq] using h.rootStub

/-- No two symbols have the same key. -/
theorem eq_of_key_eq (h : table.Consistent) (hs : table.symbol? id = some s)
    (ht : table.symbol? place = some t) (hkey : s.key = t.key) : id = place :=
  Option.some.inj (((h.lookup t.key id).mpr ⟨s, hs, hkey⟩).symm.trans
    ((h.lookup t.key place).mpr ⟨t, ht, rfl⟩))

/-- What the index leads to is a symbol of that path. -/
theorem lookup_eq_some (h : table.Consistent) (hid : table.lookup k = some id) :
    ∃ s, table.symbol? id = some s ∧ s.key = k :=
  (h.lookup k id).mp hid

/-- What the index does not know is the path of no symbol. -/
theorem lookup_eq_none_iff (h : table.Consistent) :
    table.lookup k = none ↔ ∀ id s, table.symbol? id = some s → s.key ≠ k := by
  constructor
  · intro hnone id s hs hkey
    have hid := (h.lookup k id).mpr ⟨s, hs, hkey⟩
    rw [hnone] at hid
    cases hid
  · intro hunseen
    refine Option.eq_none_iff_forall_ne_some.mpr fun id hid => ?_
    obtain ⟨s, hs, hkey⟩ := h.lookup_eq_some hid
    exact hunseen id s hs hkey

/-! ### The step -/

/-- A class whose key is new enters both indexes where it belongs. -/
theorem add (h : table.Consistent) (hnew : table.lookup s.key = none) :
    (table.add s).Consistent where
  size := by
    have hfresh : table.byPath.contains s.path.text = false := by
      rw [Std.TreeMap.contains_eq_isSome_getElem?, ← SymbolTable.lookup, ← Symbol.key, hnew]
      rfl
    have hsize : table.byPath.size = table.symbols.length := h.size
    simp [SymbolTable.size, SymbolTable.add, Std.TreeMap.size_insert, hfresh, hsize]
  lookup k id := by
    simp only [lookup_add, symbol?_add]
    split
    · rename_i hk
      -- no symbol but the new one has this key
      have hunseen := h.lookup_eq_none_iff.mp (hk ▸ hnew)
      constructor
      · rintro ⟨⟩
        exact ⟨s, .inr ⟨rfl, rfl⟩, hk⟩
      · rintro ⟨t, ht | ⟨rfl, rfl⟩, hkey⟩
        · exact absurd hkey (hunseen id t ht)
        · rfl
    · rename_i hk
      rw [h.lookup]
      constructor
      · rintro ⟨t, ht, hkey⟩
        exact ⟨t, .inl ht, hkey⟩
      · rintro ⟨t, ht | ⟨-, rfl⟩, hkey⟩
        · exact ⟨t, ht, hkey⟩
        · exact absurd hkey hk
  rootStub name id := by
    simp only [rootStub_add, symbol?_add]
    split
    · rename_i hstub
      obtain ⟨hkind, hroot⟩ := Symbol.isRootStub_iff.mp hstub.1
      have hname : s.key = name := (Symbol.key_of_namespaces hroot).trans hstub.2
      have hunseen := h.lookup_eq_none_iff.mp (hname ▸ hnew)
      constructor
      · rintro ⟨⟩
        exact ⟨s, .inr ⟨rfl, rfl⟩, hkind, hroot, hstub.2⟩
      · rintro ⟨t, ht | ⟨rfl, rfl⟩, -, htroot, htname⟩
        · exact absurd ((Symbol.key_of_namespaces htroot).trans htname) (hunseen id t ht)
        · rfl
    · rename_i hstub
      rw [h.rootStub]
      constructor
      · rintro ⟨t, ht, hrest⟩
        exact ⟨t, .inl ht, hrest⟩
      · rintro ⟨t, ht | ⟨-, rfl⟩, hkind, hroot, hname⟩
        · exact ⟨t, ht, hkind, hroot, hname⟩
        · exact absurd ⟨Symbol.isRootStub_iff.mpr ⟨hkind, hroot⟩, hname⟩ hstub

/-- A class that is defined keeps its key, and is taken from the root stubs if it is one of them. -/
theorem define (h : table.Consistent) (hold : table.symbol? place = some old) (node : NodeId)
    (span : Span) : (table.define place old node span).Consistent where
  size := h.size.trans (List.length_modify ..).symm
  lookup k id := by
    rw [lookup_define, h.lookup]
    simp only [symbol?_define]
    constructor
    · rintro ⟨s, hs, hkey⟩
      refine ⟨_, ⟨s, hs, rfl⟩, ?_⟩
      split
      · exact hkey
      · exact hkey
    · rintro ⟨_, ⟨s, hs, rfl⟩, hkey⟩
      refine ⟨s, hs, ?_⟩
      split at hkey
      · exact hkey
      · exact hkey
  rootStub name id := by
    rw [rootStub_define]
    simp only [symbol?_define]
    split
    · rename_i hretired
      obtain ⟨hroot, hname⟩ := hretired
      constructor
      · -- the only root stub of this name is the one that is defined
        nofun
      · rintro ⟨_, ⟨s, hs, rfl⟩, hkind, hsroot, hsname⟩
        split at hkind
        · cases hkind
        · -- another root stub of this name would have the same key
          rename_i hid
          rw [if_neg hid] at hsroot hsname
          refine absurd (h.eq_of_key_eq hold hs ?_) hid
          rw [Symbol.key_of_namespaces hroot, Symbol.key_of_namespaces hsroot, hname, hsname]
    · rename_i hretired
      rw [h.rootStub]
      constructor
      · rintro ⟨s, hs, hkind, hroot, hname⟩
        have hid : place ≠ id := by
          rintro rfl
          obtain rfl := Option.some.inj (hold.symm.trans hs)
          exact hretired ⟨hroot, hname⟩
        refine ⟨_, ⟨s, hs, rfl⟩, ?_⟩
        rw [if_neg hid]
        exact ⟨hkind, hroot, hname⟩
      · rintro ⟨_, ⟨s, hs, rfl⟩, hkind, hroot, hname⟩
        split at hkind
        · cases hkind
        · rename_i hid
          rw [if_neg hid] at hroot hname
          exact ⟨s, hs, hkind, hroot, hname⟩

end Consistent

/-! ## One declaration -/

/-- Tell a table of a class: the answer, and the table as it is then. -/
def announce (table : SymbolTable) (a : Announcement) : Except ClassId ClassId × SymbolTable :=
  table.enter a.path a.kind a.node a.span

/-- The table after a declaration, whatever was answered. -/
def tell (table : SymbolTable) (a : Announcement) : SymbolTable := (table.announce a).2

/-- What a declaration can do: start a symbol, be refused as a second definition, define what has
only been forward declared, or add nothing. -/
theorem Consistent.announce_cases (h : table.Consistent) (a : Announcement) :
    (table.lookup a.key = none ∧
      table.announce a = (.ok table.symbols.length, table.add a.symbol)) ∨
    ∃ id s, table.lookup a.key = some id ∧ table.symbol? id = some s ∧ s.key = a.key ∧
      ((s.kind = .defined ∧ a.kind = .defined ∧ table.announce a = (.error id, table)) ∨
        (s.kind = .forwardOnly ∧ a.kind = .defined ∧
          table.announce a = (.ok id, table.define id s a.node a.span)) ∨
        (a.kind = .forwardOnly ∧ table.announce a = (.ok id, table))) := by
  cases hfound : table.lookup a.key with
  | none =>
    rw [Announcement.key] at hfound
    exact .inl ⟨rfl, by rw [announce, enter, hfound]; rfl⟩
  | some id =>
    obtain ⟨s, hs, hkey⟩ := h.lookup_eq_some hfound
    refine .inr ⟨id, s, rfl, hs, hkey, ?_⟩
    rw [Announcement.key] at hfound
    cases hknown : s.kind <;> cases hkind : a.kind <;>
      simp [announce, enter, hfound, hs, hknown, hkind]

/-- A declaration leaves a consistent table consistent. -/
theorem Consistent.tell (h : table.Consistent) (a : Announcement) : (table.tell a).Consistent := by
  rw [SymbolTable.tell]
  rcases h.announce_cases a with
    ⟨hnew, hrun⟩ | ⟨id, s, -, hs, -, ⟨-, -, hrun⟩ | ⟨-, -, hrun⟩ | ⟨-, hrun⟩⟩
  · rw [hrun]
    exact h.add hnew
  · rw [hrun]
    exact h
  · rw [hrun]
    exact h.define hs a.node a.span
  · rw [hrun]
    exact h

/-! ## Whole runs -/

/-- What a table can be asked to do. -/
inductive Operation where
  | announce (a : Announcement)
  | record (node : NodeId) (reference : Reference)

/-- The table after one operation. -/
def perform (table : SymbolTable) : Operation → SymbolTable
  | .announce a => table.tell a
  | .record node reference => table.record node reference

/-- The table after a run from the empty table. -/
def after (ops : List Operation) : SymbolTable := ops.foldl perform empty

/-- More operations go on from where the first ones have come to. -/
theorem after_append (ops more : List Operation) :
    after (ops ++ more) = more.foldl perform (after ops) := List.foldl_append

/-- The step: a declaration keeps the indexes consistent whether it is accepted or not, and a
reference leaves them alone. -/
theorem Consistent.perform (h : table.Consistent) (op : Operation) :
    (table.perform op).Consistent := by
  cases op with
  | announce a => exact h.tell a
  | record node reference => exact h.congr ((SameClasses.refl table).record node reference)

theorem Consistent.foldl (h : table.Consistent) (ops : List Operation) :
    (ops.foldl SymbolTable.perform table).Consistent := by
  induction ops generalizing table with
  | nil => exact h
  | cons op ops ih => exact ih (h.perform op)

/-- The indexes fit the classes after any run. -/
theorem consistent_after (ops : List Operation) : (after ops).Consistent :=
  consistent_empty.foldl ops

/-! ## Without the indexes -/

/-- A lookup finds what a search through the list finds. -/
theorem Consistent.lookup_eq_findIdx? (h : table.Consistent) (k : String) :
    table.lookup k = table.symbols.findIdx? (·.key = k) := by
  cases hfound : table.lookup k with
  | none =>
    refine (List.findIdx?_eq_none_iff.mpr fun s hs => ?_).symm
    obtain ⟨id, hid⟩ := List.mem_iff_getElem?.mp hs
    exact decide_eq_false (h.lookup_eq_none_iff.mp hfound id s hid)
  | some id =>
    obtain ⟨s, hs, hkey⟩ := h.lookup_eq_some hfound
    obtain ⟨hlt, rfl⟩ := List.getElem?_eq_some_iff.mp hs
    refine (List.findIdx?_eq_some_iff_getElem.mpr ⟨hlt, decide_eq_true hkey, ?_⟩).symm
    intro earlier hearlier hsame
    have hother := List.getElem?_eq_getElem (Nat.lt_trans hearlier hlt)
    have := h.eq_of_key_eq hother hs ((of_decide_eq_true hsame).trans hkey.symm)
    omega

/-- A root stub is found where its name is looked up. -/
theorem Consistent.rootStub_eq_filter (h : table.Consistent) (name : String) :
    table.rootStub name =
      (table.lookup name).filter fun id => (table.symbol? id).any Symbol.isRootStub := by
  refine Option.ext fun id => ?_
  rw [h.rootStub, Option.filter_eq_some_iff, h.lookup]
  constructor
  · rintro ⟨s, hs, hkind, hroot, hname⟩
    refine ⟨⟨s, hs, (Symbol.key_of_namespaces hroot).trans hname⟩, ?_⟩
    rw [hs]
    exact Symbol.isRootStub_iff.mpr ⟨hkind, hroot⟩
  · rintro ⟨⟨s, hs, hkey⟩, hstub⟩
    rw [hs] at hstub
    obtain ⟨hkind, hroot⟩ := Symbol.isRootStub_iff.mp hstub
    exact ⟨s, hs, hkind, hroot, (Symbol.key_of_namespaces hroot).symm.trans hkey⟩

end SymbolTable

end BindingIdl
