import BindingIdl.Proofs.Symbol.Indexes
import Mathlib.Data.List.Dedup
import Mathlib.Data.List.Induction

/-!
# The history of a table

A table is told of classes, in any order and more than once, and of references in between.
`SymbolTable.Reflects as table` says what it holds once it has been told of the classes in `as`: one
symbol for each key, with the path of the first announcement under that key, and for the rest what
the deciding announcement says. That is the first definition, or the first announcement at all as
long as there is no definition.

The table is consistent all along, so it is enough to look at its list of symbols. `Reflects.tell`
is the step and `reflects_after` the run. `after_faithful` reads off them what can be asked of a
table.
-/

namespace BindingIdl

namespace Announcement

variable {as : List Announcement} {a b : Announcement} {k : String}

/-- The first announcement under a key. -/
def first? (as : List Announcement) (k : String) : Option Announcement := as.find? (·.key = k)

/-- The first definition under a key. -/
def definition? (as : List Announcement) (k : String) : Option Announcement :=
  as.find? fun a => a.key = k ∧ a.kind = .defined

/-- The announcement that says what is known under a key. -/
def deciding? (as : List Announcement) (k : String) : Option Announcement :=
  (definition? as k).or (first? as k)

/-- A later announcement is the first only where there was none. -/
theorem first?_concat (as : List Announcement) (a : Announcement) (k : String) :
    first? (as ++ [a]) k = (first? as k).or (if a.key = k then some a else none) := by
  rw [first?, List.find?_append, List.find?_singleton]
  simp [first?]

/-- A later definition is the one that counts only where there was none. -/
theorem definition?_concat (as : List Announcement) (a : Announcement) (k : String) :
    definition? (as ++ [a]) k =
      (definition? as k).or (if a.key = k ∧ a.kind = .defined then some a else none) := by
  rw [definition?, List.find?_append, List.find?_singleton]
  simp [definition?]

theorem first?_eq_none_iff : first? as k = none ↔ ∀ a ∈ as, a.key ≠ k := by
  simp [first?]

theorem definition?_eq_none_iff :
    definition? as k = none ↔ ∀ a ∈ as, a.key = k → a.kind ≠ .defined := by
  simp [definition?]

/-- The definition of a path is one of the announcements. -/
theorem of_definition? (h : definition? as k = some a) :
    a ∈ as ∧ a.key = k ∧ a.kind = .defined :=
  ⟨List.mem_of_find?_eq_some h, by simpa using List.find?_some h⟩

theorem of_first? (h : first? as k = some a) : a ∈ as ∧ a.key = k :=
  ⟨List.mem_of_find?_eq_some h, by simpa using List.find?_some h⟩

/-- What decides on a symbol is one of the announcements of its path. -/
theorem of_deciding? (h : deciding? as k = some a) : a ∈ as ∧ a.key = k := by
  rcases Option.or_eq_some_iff.mp h with h | ⟨-, h⟩
  · exact ⟨(of_definition? h).1, (of_definition? h).2.1⟩
  · exact of_first? h

/-- What is known under a key is a definition as soon as there is one. -/
theorem kind_of_deciding? (h : deciding? as k = some a) :
    a.kind = .defined ↔ ∃ b ∈ as, b.key = k ∧ b.kind = .defined := by
  rcases Option.or_eq_some_iff.mp h with h | ⟨hnone, h⟩
  · obtain ⟨hmem, hkey, hkind⟩ := of_definition? h
    exact ⟨fun _ => ⟨a, hmem, hkey, hkind⟩, fun _ => hkind⟩
  · obtain ⟨hmem, hkey⟩ := of_first? h
    have hnone := definition?_eq_none_iff.mp hnone
    constructor
    · intro hkind
      exact absurd hkind (hnone a hmem hkey)
    · rintro ⟨b, hb, hbkey, hbkind⟩
      exact absurd hbkind (hnone b hb hbkey)

/-- Nothing changes under a key that is not the one announced. -/
theorem deciding?_concat_of_ne (h : a.key ≠ k) : deciding? (as ++ [a]) k = deciding? as k := by
  simp [deciding?, first?_concat, definition?_concat, h]

/-- A forward declaration of a known class decides nothing. -/
theorem deciding?_concat_of_forwardOnly (hkind : a.kind = .forwardOnly)
    (h : deciding? as k = some b) : deciding? (as ++ [a]) k = some b := by
  rw [deciding?, definition?_concat, first?_concat, if_neg (by simp [hkind]), Option.or_none]
  rw [← h, deciding?]
  cases hfirst : first? as k with
  | some _ => rfl
  | none =>
    rw [deciding?, hfirst, Option.or_none] at h
    rw [h]
    rfl

/-- Nor does anything once there is a definition. -/
theorem deciding?_concat_of_defined (h : deciding? as k = some b) (hkind : b.kind = .defined)
    (a : Announcement) : deciding? (as ++ [a]) k = some b := by
  have hdefinition : definition? as k = some b := by
    rcases Option.or_eq_some_iff.mp h with h | ⟨hnone, hfirst⟩
    · exact h
    · obtain ⟨hmem, hkey⟩ := of_first? hfirst
      exact absurd hkind (definition?_eq_none_iff.mp hnone b hmem hkey)
  rw [deciding?, definition?_concat, hdefinition]
  rfl

/-- The first definition decides. -/
theorem deciding?_concat_of_definition (hkey : a.key = k) (hkind : a.kind = .defined)
    (h : ∀ b ∈ as, b.key = k → b.kind ≠ .defined) : deciding? (as ++ [a]) k = some a := by
  rw [deciding?, definition?_concat, definition?_eq_none_iff.mpr h, if_pos ⟨hkey, hkind⟩]
  rfl

/-- A new key is decided by its first announcement. -/
theorem deciding?_concat_of_new (hkey : a.key = k) (h : ∀ b ∈ as, b.key ≠ k) :
    deciding? (as ++ [a]) k = some a := by
  have hdefinition : definition? as k = none :=
    definition?_eq_none_iff.mpr fun b hb hbkey => absurd hbkey (h b hb)
  rw [deciding?, definition?_concat, first?_concat, hdefinition, first?_eq_none_iff.mpr h]
  simp [hkey]
  cases a.kind <;> simp

end Announcement

open Announcement

/-- A symbol says what has been announced under its key. -/
structure Symbol.Reflects (as : List Announcement) (s : Symbol) : Prop where
  path : ∃ a, first? as s.key = some a ∧ s.path = a.path
  rest : ∃ a, deciding? as s.key = some a ∧ s.kind = a.kind ∧ s.node = a.node ∧ s.span = a.span

/-- An announcement that leaves a symbol's key decided as it was leaves the symbol right. -/
theorem Symbol.Reflects.concat {as : List Announcement} {s : Symbol} {a : Announcement}
    (h : s.Reflects as) (hdeciding : deciding? (as ++ [a]) s.key = deciding? as s.key) :
    s.Reflects (as ++ [a]) where
  path := by
    obtain ⟨first, hfirst, hpath⟩ := h.path
    exact ⟨first, by rw [first?_concat, hfirst]; rfl, hpath⟩
  rest := hdeciding ▸ h.rest

namespace SymbolTable

variable {table next : SymbolTable} {as : List Announcement} {a : Announcement} {id : Nat}
  {k : String}

/-- Announcements and references do not touch each other. -/
theorem references_tell (h : table.Consistent) (a : Announcement) :
    (table.tell a).references = table.references := by
  rw [tell]
  rcases h.announce_cases a with
    ⟨-, hrun⟩ | ⟨id, s, -, -, -, ⟨-, -, hrun⟩ | ⟨-, -, hrun⟩ | ⟨-, hrun⟩⟩ <;>
    rw [hrun]
  · rfl
  · rfl

/-- A symbol stays in its place, under its key, when another is added. -/
theorem exists_symbol?_add {s : Symbol} (hs : table.symbol? id = some s) (new : Symbol) :
    ∃ t, (table.add new).symbol? id = some t ∧ t.key = s.key :=
  ⟨s, symbol?_add.mpr (.inl hs), rfl⟩

/-- So it does when one is defined, be it this one or another. -/
theorem exists_symbol?_define {s : Symbol} (hs : table.symbol? id = some s) (place : Nat)
    (old : Symbol) (node : NodeId) (span : Span) :
    ∃ t, (table.define place old node span).symbol? id = some t ∧ t.key = s.key := by
  refine ⟨_, symbol?_define.mpr ⟨s, hs, rfl⟩, ?_⟩
  split <;> rfl

/-- No declaration moves a symbol or changes its key. -/
theorem symbol?_tell (h : table.Consistent) {s : Symbol} (hs : table.symbol? id = some s)
    (a : Announcement) : ∃ t, (table.tell a).symbol? id = some t ∧ t.key = s.key := by
  rw [tell]
  rcases h.announce_cases a with
    ⟨-, hrun⟩ | ⟨place, old, -, -, -, ⟨-, -, hrun⟩ | ⟨-, -, hrun⟩ | ⟨-, hrun⟩⟩ <;>
    rw [hrun]
  · exact exists_symbol?_add hs _
  · exact ⟨s, hs, rfl⟩
  · exact exists_symbol?_define hs _ _ _ _
  · exact ⟨s, hs, rfl⟩

/-! ## What a table reflects -/

/-- What a table holds once it has been told of some classes. -/
structure Reflects (as : List Announcement) (table : SymbolTable) : Prop where
  consistent : table.Consistent
  known : ∀ a ∈ as, ∃ id s, table.symbol? id = some s ∧ s.key = a.key
  told : ∀ id s, table.symbol? id = some s → s.Reflects as

/-- Nothing has been announced to the empty table. -/
theorem reflects_empty : Reflects [] empty where
  consistent := consistent_empty
  known a ha := absurd ha List.not_mem_nil
  told id s h := by simp [symbol?, empty] at h

theorem Reflects.congr (h : Reflects as table) (hsame : next.SameClasses table) :
    Reflects as next where
  consistent := h.consistent.congr hsame
  known := by simpa only [hsame.symbol?_eq] using h.known
  told := by simpa only [hsame.symbol?_eq] using h.told

/-- A key is known when it has been announced. -/
theorem Reflects.lookup_isSome_iff (h : Reflects as table) :
    (table.lookup k).isSome = true ↔ ∃ a ∈ as, a.key = k := by
  rw [Option.isSome_iff_exists]
  constructor
  · rintro ⟨id, hid⟩
    obtain ⟨s, hs, rfl⟩ := h.consistent.lookup_eq_some hid
    obtain ⟨a, ha, -⟩ := (h.told id s hs).path
    exact ⟨a, of_first? ha⟩
  · rintro ⟨a, ha, rfl⟩
    obtain ⟨id, s, hs, hkey⟩ := h.known a ha
    exact ⟨id, (h.consistent.lookup _ _).mpr ⟨s, hs, hkey⟩⟩

/-- All keys are known after a step that moves no symbol and knows the new key. -/
theorem Reflects.known_concat (h : Reflects as table)
    (hkept : ∀ id s, table.symbol? id = some s → ∃ t, next.symbol? id = some t ∧ t.key = s.key)
    (hnew : ∃ id t, next.symbol? id = some t ∧ t.key = a.key) :
    ∀ b ∈ as ++ [a], ∃ id t, next.symbol? id = some t ∧ t.key = b.key := by
  intro b hb
  obtain hb | hb := List.mem_append.mp hb
  · obtain ⟨id, s, hs, hkey⟩ := h.known b hb
    obtain ⟨t, ht, hsame⟩ := hkept id s hs
    exact ⟨id, t, ht, hsame.trans hkey⟩
  · rw [List.mem_singleton.mp hb]
    exact hnew

/-- A new key gets a symbol of its own. -/
theorem Reflects.add (h : Reflects as table) (hnew : table.lookup a.key = none) :
    Reflects (as ++ [a]) (table.add a.symbol) := by
  have old : ∀ id t, table.symbol? id = some t → t.key ≠ a.key :=
    h.consistent.lookup_eq_none_iff.mp hnew
  have unseen : ∀ b ∈ as, b.key ≠ a.key := by
    intro b hb
    obtain ⟨id, t, ht, hsame⟩ := h.known b hb
    exact hsame ▸ old id t ht
  have added : (table.add a.symbol).symbol? table.symbols.length = some a.symbol :=
    symbol?_add.mpr (.inr ⟨rfl, rfl⟩)
  refine ⟨h.consistent.add hnew, ?_, ?_⟩
  · exact h.known_concat (fun _ _ hs => exists_symbol?_add hs _) ⟨_, _, added, rfl⟩
  · intro id t ht
    obtain ht | ⟨-, rfl⟩ := symbol?_add.mp ht
    · exact (h.told id t ht).concat (deciding?_concat_of_ne (old id t ht).symm)
    · refine ⟨⟨a, ?_, rfl⟩, a, deciding?_concat_of_new rfl unseen, rfl, rfl, rfl⟩
      have hnone : first? as a.symbol.key = none := first?_eq_none_iff.mpr unseen
      rw [first?_concat, hnone]
      exact if_pos rfl

/-- The first definition of a class decides what is known of it, but for its path. -/
theorem Reflects.define (h : Reflects as table) {place : Nat} {old : Symbol}
    (hold : table.symbol? place = some old) (hkey : old.key = a.key)
    (hforward : ∀ b ∈ as, b.key = a.key → b.kind ≠ .defined) (hkind : a.kind = .defined) :
    Reflects (as ++ [a]) (table.define place old a.node a.span) := by
  refine ⟨h.consistent.define hold a.node a.span, ?_, ?_⟩
  · obtain ⟨t, ht, hsame⟩ := exists_symbol?_define hold place old a.node a.span
    exact h.known_concat (fun _ _ hs => exists_symbol?_define hs _ _ _ _)
      ⟨place, t, ht, hsame.trans hkey⟩
  · intro id t ht
    obtain ⟨s, hs, rfl⟩ := symbol?_define.mp ht
    by_cases hid : place = id
    · obtain rfl : s = old := Option.some.inj (hs.symm.trans (hid ▸ hold))
      -- the path stays that of the first announcement, and the rest is this one's
      obtain ⟨first, hfirst, hpath⟩ := (h.told id s hs).path
      have hdeciding : deciding? (as ++ [a]) s.key = some a :=
        deciding?_concat_of_definition hkey.symm hkind (hkey ▸ hforward)
      rw [if_pos hid]
      refine ⟨⟨first, ?_, hpath⟩, a, hdeciding, hkind.symm, rfl, rfl⟩
      rw [Symbol.key_define, first?_concat, hfirst]
      rfl
    · have other : a.key ≠ s.key := fun hsame =>
        hid (h.consistent.eq_of_key_eq hold hs (hkey.trans hsame))
      rw [if_neg hid]
      exact (h.told id s hs).concat (deciding?_concat_of_ne other)

/-- An announcement that decides nothing leaves the table right as it is. -/
theorem Reflects.stay (h : Reflects as table) {s : Symbol} (hs : table.symbol? id = some s)
    (hkey : s.key = a.key)
    (hdeciding : ∀ b, deciding? as a.key = some b → b.kind = s.kind →
      deciding? (as ++ [a]) a.key = some b) : Reflects (as ++ [a]) table := by
  refine ⟨h.consistent, ?_, ?_⟩
  · exact h.known_concat (fun _ t ht => ⟨t, ht, rfl⟩) ⟨id, s, hs, hkey⟩
  · intro id' t ht
    refine (h.told id' t ht).concat ?_
    by_cases hsame : a.key = t.key
    · obtain rfl : id = id' := h.consistent.eq_of_key_eq hs ht (hkey.trans hsame)
      obtain rfl : s = t := Option.some.inj (hs.symm.trans ht)
      obtain ⟨b, hb, hbkind, -⟩ := (h.told id s hs).rest
      rw [hb, hkey]
      exact hdeciding b (hkey ▸ hb) hbkind.symm
    · exact deciding?_concat_of_ne hsame

/-- The step: one more announcement changes the symbols as it changes the history. -/
theorem Reflects.tell (h : Reflects as table) (a : Announcement) :
    Reflects (as ++ [a]) (table.tell a) := by
  rw [SymbolTable.tell]
  rcases h.consistent.announce_cases a with
    ⟨hnew, hrun⟩ |
    ⟨id, s, -, hs, hkey, ⟨hknown, -, hrun⟩ | ⟨hknown, hkind, hrun⟩ | ⟨hkind, hrun⟩⟩ <;>
    rw [hrun]
  · exact h.add hnew
  · exact h.stay hs hkey fun b hb hsame => deciding?_concat_of_defined hb (hsame.trans hknown) a
  · -- the class has only been forward declared, so this is the first definition
    obtain ⟨b, hb, hbkind, -⟩ := (h.told id s hs).rest
    refine h.define hs hkey (fun c hc hckey hckind => ?_) hkind
    have hdefined := (kind_of_deciding? hb).mpr ⟨c, hc, hckey.trans hkey.symm, hckind⟩
    rw [← hbkind, hknown] at hdefined
    cases hdefined
  · exact h.stay hs hkey fun b hb _ => deciding?_concat_of_forwardOnly hkind hb

/-- Each path has one symbol at most, since the index leads back to it. -/
theorem Consistent.keys_nodup (h : table.Consistent) : (table.symbols.map Symbol.key).Nodup := by
  rw [List.Nodup, List.pairwise_map, List.pairwise_iff_getElem]
  intro i j hi hj hlt hsame
  exact Nat.ne_of_lt hlt
    (h.eq_of_key_eq (List.getElem?_eq_getElem hi) (List.getElem?_eq_getElem hj) hsame)

/-- There are as many classes as different keys. -/
theorem Reflects.size_eq (h : Reflects as table) : table.size = (as.map key).dedup.length := by
  have hperm : (table.symbols.map Symbol.key).Perm (as.map key).dedup := by
    refine (List.perm_ext_iff_of_nodup h.consistent.keys_nodup (List.nodup_dedup _)).mpr fun k => ?_
    rw [List.mem_dedup, List.mem_map, List.mem_map]
    constructor
    · rintro ⟨s, hs, rfl⟩
      obtain ⟨id, hid⟩ := List.mem_iff_getElem?.mp hs
      obtain ⟨a, ha, -⟩ := (h.told id s hid).path
      exact ⟨a, of_first? ha⟩
    · rintro ⟨a, ha, rfl⟩
      obtain ⟨id, s, hs, hkey⟩ := h.known a ha
      exact ⟨s, List.mem_of_getElem? hs, hkey⟩
  rw [h.consistent.size, ← hperm.length_eq, List.length_map]

/-- A definition is refused where there is one already. -/
theorem Consistent.announce_eq_error_iff (h : table.Consistent) :
    (table.announce a).1 = .error id ↔ a.kind = .defined ∧ table.lookup a.key = some id ∧
      ∃ s, table.symbol? id = some s ∧ s.kind = .defined := by
  rcases h.announce_cases a with ⟨hnew, hrun⟩ |
    ⟨place, s, hplace, hs, -, ⟨hknown, hkind, hrun⟩ | ⟨hknown, -, hrun⟩ | ⟨hkind, hrun⟩⟩ <;>
    rw [hrun]
  · simp [hnew]
  · rw [hplace]
    constructor
    · rintro ⟨⟩
      exact ⟨hkind, rfl, s, hs, hknown⟩
    · rintro ⟨-, ⟨⟩, -⟩
      rfl
  · rw [hplace]
    constructor
    · nofun
    · rintro ⟨-, ⟨⟩, t, ht, htkind⟩
      obtain rfl := Option.some.inj (hs.symm.trans ht)
      rw [hknown] at htkind
      cases htkind
  · simp [hkind]

/-- A declaration that is refused leaves everything as it was. -/
theorem Consistent.tell_of_error (h : table.Consistent)
    (herror : (table.announce a).1 = .error id) : table.tell a = table := by
  rw [SymbolTable.tell]
  rcases h.announce_cases a with ⟨-, hrun⟩ |
    ⟨place, s, -, -, -, ⟨-, -, hrun⟩ | ⟨-, -, hrun⟩ | ⟨-, hrun⟩⟩ <;> rw [hrun] at herror ⊢
  · cases herror
  · cases herror

/-- What is accepted is found under the id that is answered. -/
theorem Consistent.lookup_of_announce (h : table.Consistent)
    (hok : (table.announce a).1 = .ok id) : (table.tell a).lookup a.key = some id := by
  rw [SymbolTable.tell]
  rcases h.announce_cases a with ⟨-, hrun⟩ |
    ⟨place, s, hplace, -, -, ⟨-, -, hrun⟩ | ⟨-, -, hrun⟩ | ⟨-, hrun⟩⟩ <;>
    (rw [hrun] at hok ⊢; cases hok)
  · exact lookup_add.trans (if_pos rfl)
  · exact hplace
  · exact hplace

/-! ## Whole runs -/

namespace Operation

/-- The announcement, unless a reference is recorded. -/
def announcement? : Operation → Option Announcement
  | announce a => some a
  | record .. => none

/-- The reference recorded for a node, if the operation records one. -/
def reference? (node : NodeId) : Operation → Option Reference
  | announce _ => none
  | record node' reference => if node' = node then some reference else none

end Operation

/-- The announcements of a run. -/
def announced (ops : List Operation) : List Announcement := ops.filterMap Operation.announcement?

/-- By induction on the run, from its end: recording changes no class. -/
theorem reflects_after (ops : List Operation) : Reflects (announced ops) (after ops) := by
  induction ops using List.reverseRecOn with
  | nil => exact reflects_empty
  | append_singleton ops op ih =>
    rw [after_append, announced, List.filterMap_append]
    cases op with
    | announce a => exact ih.tell a
    | record node reference =>
      rw [List.filterMap_cons_none rfl, List.filterMap_nil, List.append_nil]
      exact ih.congr ((SameClasses.refl _).record node reference)

/-- What is in a place stays there under its key, through any run. -/
theorem symbol?_foldl (h : table.Consistent) {s : Symbol} (hs : table.symbol? id = some s)
    (more : List Operation) :
    ∃ t, (more.foldl perform table).symbol? id = some t ∧ t.key = s.key := by
  induction more generalizing table s with
  | nil => exact ⟨s, hs, rfl⟩
  | cons op more ih =>
    obtain ⟨t, ht, hkey⟩ : ∃ t, (table.perform op).symbol? id = some t ∧ t.key = s.key := by
      cases op with
      | announce a => exact symbol?_tell h hs a
      | record => exact ⟨s, hs, rfl⟩
    obtain ⟨u, hu, hsame⟩ := ih (h.perform op) ht
    exact ⟨u, hu, hsame.trans hkey⟩

/-- An id once given stays that of its key. -/
theorem lookup_after_append {ops : List Operation} (h : (after ops).lookup k = some id)
    (more : List Operation) : (after (ops ++ more)).lookup k = some id := by
  obtain ⟨s, hs, rfl⟩ := (consistent_after ops).lookup_eq_some h
  obtain ⟨t, ht, hkey⟩ := symbol?_foldl (consistent_after ops) hs more
  rw [(consistent_after _).lookup, after_append]
  exact ⟨t, ht, hkey⟩

/-- The entry of one node is replaced, and no other. -/
theorem reference?_record (table : SymbolTable) (n m : NodeId) (r : Reference) :
    (table.record n r).reference? m = if n = m then some r else table.reference? m := by
  simp [reference?, record, Std.TreeMap.getElem?_insert]

/-- A node means what was recorded for it last. -/
theorem reference?_after (ops : List Operation) (node : NodeId) :
    (after ops).reference? node = ops.reverse.findSome? (·.reference? node) := by
  induction ops using List.reverseRecOn with
  | nil => simp [after, empty, reference?]
  | append_singleton ops op ih =>
    rw [after_append, List.reverse_append, List.reverse_singleton, List.singleton_append,
      List.findSome?_cons, ← ih, List.foldl_cons, List.foldl_nil]
    cases op with
    | announce a =>
      rw [perform, reference?, references_tell (consistent_after ops)]
      rfl
    | record n r =>
      rw [perform, reference?_record, Operation.reference?]
      split <;> rfl

/-! ## What can be asked of a table -/

/-- The table behind a run is a map from keys to what has been announced under them, and from nodes
to what has been recorded for them. Its indexes fit its list of symbols, so it does not matter which
of them is asked. -/
structure Faithful (ops : List Operation) (table : SymbolTable) : Prop where
  consistent : table.Consistent
  found : ∀ k, (∃ id, table.lookup k = some id) ↔ ∃ a ∈ announced ops, a.key = k
  kept : ∀ k id, table.lookup k = some id → ∀ more, (after (ops ++ more)).lookup k = some id
  distinct : ∀ k k' id, table.lookup k = some id → table.lookup k' = some id → k = k'
  symbol : ∀ k id, table.lookup k = some id → ∃ s, table.symbol? id = some s ∧
    (∃ a, first? (announced ops) k = some a ∧ s.path = a.path) ∧
    (s.kind = .defined ↔ ∃ a ∈ announced ops, a.key = k ∧ a.kind = .defined) ∧
    ∃ a, (definition? (announced ops) k).or (first? (announced ops) k) = some a ∧
      s.node = a.node ∧ s.span = a.span
  rootStub : ∀ name id, table.rootStub name = some id ↔ ∃ s, table.symbol? id = some s ∧
    s.kind = .forwardOnly ∧ s.path.namespaces = [] ∧ s.path.name = name
  size : table.size = ((announced ops).map key).dedup.length
  accepted : ∀ a id, (table.announce a).1 = .ok id →
    (table.perform (.announce a)).lookup a.key = some id
  refused : ∀ a id, (table.announce a).1 = .error id ↔ a.kind = .defined ∧
    table.lookup a.key = some id ∧ ∃ s, table.symbol? id = some s ∧ s.kind = .defined
  unchanged : ∀ a id, (table.announce a).1 = .error id → table.perform (.announce a) = table
  references : ∀ node, table.reference? node = ops.reverse.findSome? (·.reference? node)
  announce_references : ∀ a, (table.perform (.announce a)).references = table.references
  record_classes : ∀ node r, (table.perform (.record node r)).SameClasses table
  record_reference : ∀ node r m, (table.perform (.record node r)).reference? m =
    if node = m then some r else table.reference? m

/-- Every run leaves a table that tells what has been announced to it. -/
theorem after_faithful (ops : List Operation) : Faithful ops (after ops) where
  consistent := consistent_after ops
  found k := by
    rw [← Option.isSome_iff_exists]
    exact (reflects_after ops).lookup_isSome_iff
  kept k id h := lookup_after_append h
  distinct k k' id h h' := by
    obtain ⟨s, hs, rfl⟩ := (consistent_after ops).lookup_eq_some h
    obtain ⟨s', hs', rfl⟩ := (consistent_after ops).lookup_eq_some h'
    rw [Option.some.inj (hs.symm.trans hs')]
  symbol k id h := by
    obtain ⟨s, hs, rfl⟩ := (consistent_after ops).lookup_eq_some h
    obtain ⟨hpath, a, ha, hkind, hplace⟩ := (reflects_after ops).told id s hs
    exact ⟨s, hs, hpath, hkind ▸ kind_of_deciding? ha, a, ha, hplace⟩
  rootStub := (consistent_after ops).rootStub
  size := (reflects_after ops).size_eq
  accepted a id := (consistent_after ops).lookup_of_announce
  refused a id := (consistent_after ops).announce_eq_error_iff
  unchanged a id := (consistent_after ops).tell_of_error
  references := reference?_after ops
  announce_references := references_tell (consistent_after ops)
  record_classes := (SameClasses.refl (after ops)).record
  record_reference node r m := reference?_record _ node m r

/-! A text can be spelled with or without namespaces. It is one class either way, and a definition
retires the root stub of the other spelling. -/

example :
    let stub : Announcement := ⟨⟨[], "geo::Point"⟩, .forwardOnly, 0, default⟩
    let definition : Announcement := ⟨⟨["geo"], "Point"⟩, .defined, 1, default⟩
    (after [.announce stub]).rootStub "geo::Point" = some 0 ∧
      (after [.announce stub, .announce definition]).rootStub "geo::Point" = none := by
  decide

end SymbolTable

end BindingIdl
