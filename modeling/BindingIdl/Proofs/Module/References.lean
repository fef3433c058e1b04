import BindingIdl.Proofs.Grammar.Trees
import BindingIdl.Proofs.Module.Survivors

/-!
# References of an accepted module

`Compiled` gathers what is known of a file once it has been read, resolved and classified. From it
follows where the references of a module lead: the table that bound a reference speaks of paths, the
declarations that survive are the classes of the tree, and `Compiled.lookup_cases` says what a
search in the tree finds for each path.
-/

namespace BindingIdl

open Declaration

/-! ## Kinds -/

theorem Builtin.wrapping_eq_ok {b : Builtin} {position : TypePosition} {type : TypeExpr}
    {wrapped : WrappedKind} (h : b.wrapping position type = .ok wrapped) :
    wrapped = b.kind ∧ (b = .void → position = .returned) := by
  unfold wrapping at h
  split at h
  · cases h
  · split at h
    · split at h
      · rename_i hvoid
        cases h
        simp only [Bool.and_eq_true, decide_eq_true_eq] at hvoid
        exact ⟨rfl, fun _ => hvoid.1.1⟩
      · cases h
    · rename_i hvoid
      split at h
      · cases h
      · cases h
      · cases h
        exact ⟨rfl, fun h => absurd h hvoid⟩

/-- A builtin is no class, whatever it is called. -/
theorem Builtin.isClass_kind (b : Builtin) : b.kind.kind.isClass = false := by
  cases b <;> rfl

/-- What is wrapped as a class is one. -/
theorem classWrapping_isClass {position : TypePosition} {type : TypeExpr} {wrapped : WrappedKind}
    (h : classWrapping position type = .ok wrapped) : wrapped.kind.isClass = true := by
  unfold classWrapping at h
  split at h <;> cases h <;> rfl

/-- A type has an origin when it is that of a class. -/
theorem TypeRef.Lowers.origin_eq_none_iff {table : SymbolTable} {position : TypePosition}
    {type : TypeExpr} {r : TypeRef} (h : TypeRef.Lowers table position type r) :
    r.origin = none ↔ r.kind.isClass = false := by
  cases h with
  | @builtin b _ _ hw =>
    obtain ⟨rfl, -⟩ := Builtin.wrapping_eq_ok hw
    simp [TypeRef.ofBuiltin, b.isClass_kind]
  | reference _ _ hw => simp [TypeRef.ofReference, classWrapping_isClass hw]

/-- A type that two files share is classified alike in both, if what its name denotes in the one it
denotes in the other and the same paths are defined. The ids of the classes may differ. -/
theorem TypeRef.Lowers.transfer {file file' : InterfaceFile} {table table' : SymbolTable}
    (hfollows : table.Follows file) (hfollows' : table'.Follows file') {d : Scoped ClassDecl}
    (hd : d ∈ file.definitions) (hd' : d ∈ file'.definitions) {position : TypePosition}
    {type : TypeExpr} (htype : type ∈ d.decl.types)
    (hdenotes : ∀ {p}, Denotes file.definedPaths file.forwardPaths d.scope type.name p →
      Denotes file'.definedPaths file'.forwardPaths d.scope type.name p)
    (hdefined : ∀ q, q ∈ file.definedPaths ↔ q ∈ file'.definedPaths) {r : TypeRef}
    (h : TypeRef.Lowers table position type r) : TypeRef.Lowers table' position type r := by
  cases h with
  | builtin hbuiltin hw => exact .builtin hbuiltin hw
  | @reference reference wrapped hbuiltin href hw =>
    have hclass := TypeExpr.isClassReference_iff.mpr hbuiltin
    obtain ⟨r, hr, hdenoted, hexternal⟩ := hfollows.reference d hd type htype hclass
    obtain ⟨r', hr', hdenoted', hexternal'⟩ := hfollows'.reference d hd' type htype hclass
    obtain rfl : r = reference := Option.some.inj (hr.symm.trans href)
    have hpath : r'.path = r.path := hdenoted'.unique (hdenotes hdenoted)
    have hsame : r'.external = r.external := by
      rw [Bool.eq_iff_iff, hexternal, hexternal', hpath, hdefined]
    have htarget : TypeRef.ofReference wrapped position r =
        TypeRef.ofReference wrapped position r' := by
      rw [TypeRef.ofReference, TypeRef.ofReference, hpath, hsame]
    rw [htarget]
    exact .reference hbuiltin hr' hw

/-! ## Accepted modules -/

/-- What is known of a file and its module once it has been resolved and classified. -/
structure Classified (settings : CheckSettings) (file : InterfaceFile) (table : SymbolTable)
    (m : Module) : Prop where
  wellnamed : file.Wellnamed
  distinct : Distinct file.declarations
  records : table.Records file.declarations
  follows : table.Follows file
  lowers : Module.Lowers (Class.Lowers (TypeRef.Lowers table) settings) [] none
    (Item.settleAll table [] [] file.items).1 m

/-- The same, of a file that has been read from a text. -/
structure Compiled (settings : CheckSettings) (file : InterfaceFile) (table : SymbolTable)
    (m : Module) : Prop extends Classified settings file table m where
  spelled : Item.AllSpelled file.items

/-- A module comes from a table that follows the scoping rules. -/
theorem InterfaceFile.classified_of_module {settings : CheckSettings} {file : InterfaceFile}
    {m : Module} (hfile : file.Wellnamed) (hids : (file.types.map (·.id)).Nodup)
    (h : file.module settings = .ok m) :
    ∃ table, SymbolTable.ofFile file = .ok table ∧ Classified settings file table m := by
  obtain ⟨table, htable, hm⟩ := Except.bind_eq_ok_iff.mp h
  obtain ⟨hdistinct, hrecords, hfollows, -⟩ := SymbolTable.follows_of_ofFile hfile hids htable
  exact ⟨table, htable, hfile, hdistinct, hrecords, hfollows, Item.classifyAll_eq_ok_iff.mp hm⟩

/-- A text is compiled if it is read and its file is. -/
theorem Module.ofText_eq_ok_iff {settings : Settings} {text : String} {m : Module} :
    ofText settings text = .ok m ↔ ∃ file, InterfaceFile.ofText settings.grammar text = .ok file ∧
      file.module settings.check = .ok m := by
  rw [ofText, Except.bind_eq_ok_iff]
  refine exists_congr fun file => and_congr_right fun _ => ?_
  cases file.module settings.check with
  | error d => simp [Except.mapError]
  | ok m' => simp [Except.mapError]

/-- What is read from a text has the names and the ids that resolution asks for. -/
theorem InterfaceFile.compiled_of_module {settings : Settings} {text : String}
    {file : InterfaceFile} {m : Module}
    (hfile : InterfaceFile.ofText settings.grammar text = .ok file)
    (h : file.module settings.check = .ok m) : ∃ table, Compiled settings.check file table m := by
  obtain ⟨hspelled, hids⟩ := InterfaceFile.spelled_of_ofText hfile
  obtain ⟨table, -, hm⟩ :=
    classified_of_module (InterfaceFile.wellnamed_of_allSpelled hspelled) hids h
  exact ⟨table, hm, hspelled⟩

theorem Module.compiled_of_ofText {settings : Settings} {text : String} {m : Module}
    (h : Module.ofText settings text = .ok m) :
    ∃ file table, Compiled settings.check file table m := by
  obtain ⟨file, hfile, hmodule⟩ := ofText_eq_ok_iff.mp h
  obtain ⟨table, hm⟩ := InterfaceFile.compiled_of_module hfile hmodule
  exact ⟨file, table, hm⟩

namespace Classified

variable {settings : CheckSettings} {file : InterfaceFile} {table : SymbolTable} {m : Module}

/-- The classes of the tree are the declarations that survive. -/
theorem exists_survivor (h : Classified settings file table m) {c : Class}
    (hc : c ∈ m.allClasses) : ∃ d ∈ table.survivors file.declarations,
      Class.Of (Class.Lowers (TypeRef.Lowers table) settings) d c := by
  obtain ⟨d, hd, hof⟩ := h.lowers.exists_declaration hc
  rw [table.declarations_settled] at hd
  exact ⟨d, hd, hof⟩

/-- What survives settling has a class in the module. -/
theorem exists_class (h : Classified settings file table m) {d : Scoped Declaration}
    (hd : d ∈ table.survivors file.declarations) : ∃ c ∈ m.allClasses,
      Class.Of (Class.Lowers (TypeRef.Lowers table) settings) d c := by
  refine h.lowers.exists_class ?_
  rw [table.declarations_settled]
  exact hd

/-- Every type in the tree comes from one in a signature of the file. -/
theorem exists_occurrence (h : Classified settings file table m) {c : Class} (hc : c ∈ m.allClasses)
    {r : TypeRef} (hr : r ∈ c.types) : ∃ d ∈ file.definitions, ∃ position, ∃ type ∈ d.decl.types,
      c.namespaces = d.scope ∧ TypeRef.Lowers table position type r := by
  obtain ⟨d, hd, hof⟩ := h.exists_survivor hc
  cases hof with
  | forward => exact absurd hr List.not_mem_nil
  | @definition scope inherited decl c hclass =>
    obtain ⟨type, htype, position, hlowers⟩ := exists_of_forall₂ hclass.types hr
    exact ⟨⟨scope, decl⟩, InterfaceFile.mem_definitions_iff.mpr (settle_sublist.subset hd),
      position, type, htype, hclass.namespaces, hlowers⟩

/-- What a search in the tree finds under a path of the file, and that it finds nothing under any
other. -/
theorem lookup_cases (h : Classified settings file table m) {q : QualifiedName}
    (hq : q.Wellformed) :
    (∃ c, m.lookup q.text = some c ∧ c.namespaces = q.namespaces ∧
      (q ∈ file.definedPaths ∨ q ∈ file.forwardPaths) ∧
      (c.forwardOnly = true ↔ q ∉ file.definedPaths)) ∨
    (m.lookup q.text = none ∧ ¬ (q ∈ file.definedPaths ∨ q ∈ file.forwardPaths)) := by
  have hpaths := h.wellnamed.declared
  cases hfound : m.lookup q.text with
  | some c =>
    obtain ⟨d, hd, hof⟩ := h.exists_survivor (List.mem_of_find?_eq_some hfound)
    have hmem := settle_sublist.subset hd
    have htext : d.path.text = q.text := by
      rw [← hof.qualifiedName]
      simpa using List.find?_some hfound
    -- the lookup compares texts; for paths of identifiers that is to compare paths
    obtain rfl := QualifiedName.text_injective (hpaths d hmem) hq htext
    obtain ⟨hnamespaces, -, hforward⟩ := hof.place
    refine .inl ⟨c, rfl, hnamespaces, mem_definedPaths_or_forwardPaths.mpr ⟨d, hmem, rfl⟩, ?_⟩
    rw [hforward]
    cases hdef : d.decl.isDefinition with
    | true =>
      have : d.path ∈ file.definedPaths := mem_definedPaths.mpr ⟨d, hmem, hdef, rfl⟩
      simp [this]
    | false =>
      have := (h.records.forwardPaths_survivors hpaths).mp (mem_forwardPaths.mpr ⟨d, hd, hdef, rfl⟩)
      simpa [InterfaceFile.definedPaths] using this.2
  | none =>
    refine .inr ⟨rfl, fun hknown => ?_⟩
    obtain ⟨d, hd, rfl⟩ : ∃ d ∈ table.survivors file.declarations, d.path = q := by
      rw [← mem_definedPaths_or_forwardPaths, SymbolTable.definedPaths_survivors,
        h.records.forwardPaths_survivors hpaths]
      -- if the path is defined the definition survives, otherwise the first stub
      by_cases hdefined : q ∈ file.definedPaths
      · exact .inl hdefined
      · exact .inr ⟨hknown.resolve_left hdefined, hdefined⟩
    obtain ⟨c, hc, hof⟩ := h.exists_class hd
    have := List.find?_eq_none.mp hfound c hc
    exact this (by simpa using hof.qualifiedName)

/-- What the table has recorded for a class name in a signature. -/
theorem reference (h : Classified settings file table m) {d : Scoped ClassDecl}
    (hd : d ∈ file.definitions) {type : TypeExpr} (htype : type ∈ d.decl.types)
    (hbuiltin : type.builtin? = none) {r : Reference} (hr : table.reference? type.id = some r) :
    r.path.Wellformed ∧ (r.external = true ↔ r.path ∉ file.definedPaths) ∧
      Denotes file.definedPaths file.forwardPaths d.scope type.name r.path := by
  obtain ⟨r', hr', hdenotes, hexternal⟩ :=
    h.follows.reference d hd type htype (TypeExpr.isClassReference_iff.mpr hbuiltin)
  obtain rfl : r = r' := Option.some.inj (hr.symm.trans hr')
  exact ⟨hdenotes.wellformed (h.wellnamed.name hd htype) (h.wellnamed.scope hd), hexternal,
    hdenotes⟩

/-- A defined path leads to its definition. -/
theorem lookup_of_defined (h : Classified settings file table m) {q : QualifiedName}
    (hq : q.Wellformed) (hdefined : q ∈ file.definedPaths) :
    ∃ c, m.lookup q.text = some c ∧ c.forwardOnly = false := by
  obtain ⟨c, hc, -, -, hforward⟩ | ⟨-, hunknown⟩ := h.lookup_cases hq
  · refine ⟨c, hc, Bool.eq_false_iff.mpr fun h => ?_⟩
    exact hforward.mp h hdefined
  · exact absurd (.inl hdefined) hunknown

/-- A path that is not defined is declared, or trusted because of a root stub. -/
theorem lookup_of_not_defined (h : Classified settings file table m) {scope : List String}
    {name q : QualifiedName} (hq : q.Wellformed)
    (hdenotes : Denotes file.definedPaths file.forwardPaths scope name q)
    (hdefined : q ∉ file.definedPaths) :
    (∃ c, m.lookup q.text = some c ∧ c.forwardOnly = true) ∨
    (m.lookup q.text = none ∧ q.namespaces ≠ [] ∧
      ∃ c, m.lookup q.name = some c ∧ c.namespaces = [] ∧ c.forwardOnly = true) := by
  obtain ⟨c, hc, -, -, hforward⟩ | ⟨hnone, hunknown⟩ := h.lookup_cases hq
  · exact .inl ⟨c, hc, hforward.mpr hdefined⟩
  · obtain hknown | ⟨hqualified, hroot, hroot_defined⟩ := hdenotes.known_or_rescued
    · exact absurd hknown hunknown
    · have hspaces : q.namespaces ≠ [] := by
        intro hnil
        rw [QualifiedName.isQualified, hnil] at hqualified
        cases hqualified
      refine .inr ⟨hnone, hspaces, ?_⟩
      obtain ⟨c, hc, hnamespaces, -, hforward⟩ | ⟨-, hunknown⟩ :=
        h.lookup_cases (QualifiedName.wellformed_bare hq.name)
      · exact ⟨c, hc, hnamespaces, hforward.mpr hroot_defined⟩
      · exact absurd (.inr hroot) hunknown

end Classified

/-- An accepted module has no dangling references. A type with a class behind it is that of a class
which the tree defines, or of one which it only declares, or else it is taken on trust: then the
tree has no such path, but declares its last segment at the root. -/
theorem Module.references_resolve {settings : Settings} {text : String} {m : Module}
    (h : Module.ofText settings text = .ok m) {c : Class} (hc : c ∈ m.allClasses) {r : TypeRef}
    (hr : r ∈ c.types) :
    (r.origin = some .declared →
      ∃ c', m.lookup r.qualifiedName = some c' ∧ c'.forwardOnly = false) ∧
    (r.origin = some .external →
      (∃ c', m.lookup r.qualifiedName = some c' ∧ c'.forwardOnly = true) ∨
      (m.lookup r.qualifiedName = none ∧ r.namespaces ≠ [] ∧
        ∃ c', m.lookup r.name = some c' ∧ c'.namespaces = [] ∧ c'.forwardOnly = true)) ∧
    (r.origin = none ↔ r.kind.isClass = false) := by
  obtain ⟨file, table, hm⟩ := compiled_of_ofText h
  obtain ⟨d, hd, position, type, htype, -, hlowers⟩ := hm.exists_occurrence hc hr
  refine ⟨fun horigin => ?_, fun horigin => ?_, hlowers.origin_eq_none_iff⟩
  · -- a builtin has no origin at all, and a reference has the one that its table entry says
    cases hlowers with
    | builtin => cases horigin
    | @reference reference wrapped hbuiltin href =>
      obtain ⟨hwell, hexternal, -⟩ := hm.reference hd htype hbuiltin href
      have hdeclared : reference.external = false := by
        simpa [TypeRef.ofReference] using horigin
      have hdefined : reference.path ∈ file.definedPaths := by
        by_contra hdefined
        rw [hexternal.mpr hdefined] at hdeclared
        cases hdeclared
      exact hm.lookup_of_defined hwell hdefined
  · cases hlowers with
    | builtin => cases horigin
    | @reference reference wrapped hbuiltin href =>
      obtain ⟨hwell, hexternal, hdenotes⟩ := hm.reference hd htype hbuiltin href
      have htrusted : reference.external = true := by
        simpa [TypeRef.ofReference] using horigin
      exact hm.lookup_of_not_defined hwell hdenotes (hexternal.mp htrusted)

/-- A class taken on trust: `far::Base` is nowhere declared, and `Base` is. -/
def trustedBase : TypeRef :=
  ⟨.classValue, .byValueCopy, ["far"], "Base", some .external, false⟩

/-- A class with a constructor that takes the trusted base. -/
def pointClass : Class :=
  ⟨"Point", ["geo"], none, "Point.h", false, [.constructor ⟨[⟨"base", trustedBase⟩]⟩]⟩

def pointModule : Module :=
  ⟨[⟨some "geo", ["geo"], none, [], [pointClass]⟩], [.ofForward [] ⟨0, "Base", default⟩]⟩

/-- The text of both declarations. -/
def pointText : String :=
  "class Base;\nnamespace geo \x7b\nclass Point \x7b\nPoint(far::Base base);\n\x7d;\n\x7d\n"

/-- The path of the reference leads nowhere, its bare name to the stub that it is trusted for. -/
theorem Module.trustedBase_resolves :
    Module.ofText default pointText = .ok pointModule ∧ trustedBase.origin = some .external ∧
      pointModule.lookup trustedBase.qualifiedName = none ∧
      ∃ c, pointModule.lookup trustedBase.name = some c ∧ c.namespaces = [] ∧
        c.forwardOnly = true := by
  have htext : Module.ofText default pointText = .ok pointModule := by
    have hsome : (Module.ofText default pointText).toOption = some pointModule := by
      decide +kernel
    cases hrun : Module.ofText default pointText with
    | error ds => rw [hrun] at hsome; cases hsome
    | ok m => rw [hrun] at hsome; rw [Option.some.inj hsome]
  have hnone : pointModule.lookup trustedBase.qualifiedName = none := by decide
  obtain ⟨-, hexternal, -⟩ := references_resolve htext (c := pointClass) (by decide)
    (r := trustedBase) (by decide)
  obtain ⟨c, hc, -⟩ | ⟨-, -, hroot⟩ := hexternal rfl
  · rw [hnone] at hc
    cases hc
  · exact ⟨htext, rfl, hnone, hroot⟩

end BindingIdl
