import BindingIdl.Proofs.Declaration.Renaming
import BindingIdl.Proofs.Module.Legality

/-!
# Writing every class name in full

Once a file has been resolved, each class name in it can be replaced by the path it was found to
mean: `InterfaceFile.qualified`. The result says the same. A path that has namespaces is found where
it says. One that has none is the name that was there before, either because the search came to the
root or because the name was taken on trust (`SymbolTable.Records.resolve?_path`).

So every reference of the file is recorded as before (`Occurrence.Kept`), the check sees the same
types under other names, and the table and the module come out equal.
-/

namespace BindingIdl

open Declaration

/-- The file with every class name in it written as the path that the table records for it. -/
def InterfaceFile.qualified (table : SymbolTable) (file : InterfaceFile) : InterfaceFile :=
  file.renamed (·.resolved table)

/-! ## Paths that are looked up again -/

namespace QualifiedName

variable {name q : QualifiedName} {scope : List String}

/-- A name is tried as it is, or in one of the scopes around. -/
theorem mem_candidates (h : q ∈ name.candidates scope) : q = name ∨
    (name.isQualified = false ∧ ∃ spaces, spaces <+: scope ∧ q = ⟨spaces, name.name⟩) := by
  cases hname : name.isQualified with
  | true =>
    rw [candidates, if_pos hname, List.mem_singleton] at h
    exact .inl h
  | false =>
    rw [candidates, if_neg (by rw [hname]; decide)] at h
    obtain ⟨spaces, hspaces, rfl⟩ := List.mem_map.mp h
    exact .inr ⟨rfl, spaces, mem_enclosingScopes.mp hspaces, rfl⟩

theorem Wellformed.of_mem_candidates (hname : name.Wellformed)
    (hscope : ∀ s ∈ scope, isIdentifier s = true) (h : q ∈ name.candidates scope) :
    q.Wellformed := by
  rcases mem_candidates h with rfl | ⟨-, spaces, hspaces, rfl⟩
  · exact hname
  · exact wellformed_mk_iff.mpr ⟨fun s hs => hscope s (hspaces.subset hs), hname.name⟩

/-- A name is tried as it is, or with namespaces in front. -/
theorem eq_or_isQualified_of_mem_candidates (h : q ∈ name.candidates scope) :
    q = name ∨ q.isQualified = true := by
  rcases mem_candidates h with rfl | ⟨hname, spaces, -, rfl⟩
  · exact .inl rfl
  · cases spaces with
    | nil => exact .inl (name.eq_bare hname).symm
    | cons => exact .inr rfl

end QualifiedName

namespace SymbolTable

variable {ds : List (Scoped Declaration)} {base table next : SymbolTable}

/-- What a name is found to mean goes by that name, or has namespaces and is what its path means. -/
theorem Records.resolve?_path (h : Records ds base) (hds : ∀ d ∈ ds, d.path.Wellformed)
    {scope : List String} {name : QualifiedName} (hname : name.Wellformed)
    (hscope : ∀ s ∈ scope, isIdentifier s = true) {r : Reference}
    (hr : base.resolve? scope name = some r) :
    r.path = name ∨ (r.path.isQualified = true ∧ base.resolve? scope r.path = some r) := by
  unfold resolve? at hr
  split at hr
  · rename_i id hfound
    obtain ⟨q, hq, hid⟩ := List.exists_of_findSome?_eq_some hfound
    rcases h.lookup_path hds (hname.of_mem_candidates hscope hq) with
      ⟨hnone, -⟩ | ⟨id', s, hid', hs, hpath, -⟩
    · rw [hnone] at hid
      cases hid
    · obtain rfl : id' = id := Option.some.inj (hid'.symm.trans hid)
      obtain rfl : ⟨id', s.path, s.isForwardOnly⟩ = r := by simpa [hs] using hr
      -- with namespaces in front it is a candidate of its own, and the only one
      refine (QualifiedName.eq_or_isQualified_of_mem_candidates hq).imp hpath.trans fun hlong => ?_
      have hcandidates : q.candidates scope = [q] := if_pos hlong
      rw [hpath]
      exact ⟨hlong, by simp [resolve?, hcandidates, hid', hs, hpath]⟩
  · -- the name is taken on trust
    obtain ⟨id, -, rfl⟩ := Option.map_eq_some_iff.mp hr
    exact .inl rfl

end SymbolTable

/-! ## Resolving under other names -/

section

variable {name : TypeExpr → QualifiedName}

/-- An occurrence that means under its new name what it meant before. -/
structure Occurrence.Kept (base : SymbolTable) (name : TypeExpr → QualifiedName)
    (o : Occurrence) : Prop where
  builtin : (o.type.renamed name).builtin? = o.type.builtin?
  meaning : o.type.isClassReference = true →
    base.resolve? o.scope (name o.type) = base.resolve? o.scope o.type.name

namespace Occurrence

/-- The occurrence with its type under the new name. -/
def renamed (name : TypeExpr → QualifiedName) (o : Occurrence) : Occurrence :=
  ⟨o.scope, o.owner, o.member.renamed name, o.type.renamed name⟩

/-- To rename a file is to rename the types where they occur. -/
theorem ofDefinitions_renamed (definitions : List (Scoped ClassDecl)) :
    ofDefinitions (definitions.map (Scoped.map (ClassDecl.renamed name))) =
      (ofDefinitions definitions).map (renamed name) := by
  simp [ofDefinitions, Scoped.map, ClassDecl.renamed, renamed, List.flatMap_map, List.map_flatMap,
    Function.comp_def]

end Occurrence

namespace SymbolTable

variable {base table next : SymbolTable} {o : Occurrence}

/-- A type that keeps its meaning is resolved to the same class under its new name. -/
theorem visit_renamed (hclasses : table.SameClasses base) (ho : o.Kept base name)
    (h : table.visit o = .ok next) : table.visit (o.renamed name) = .ok next := by
  have hclass : (o.type.renamed name).isClassReference = o.type.isClassReference := by
    rw [TypeExpr.isClassReference, ho.builtin, TypeExpr.isClassReference]
  rw [visit, resolveType, resolve?_congr hclasses] at h ⊢
  simp only [Occurrence.renamed, hclass] at h ⊢
  cases hreference : o.type.isClassReference with
  | false =>
    -- a builtin is passed over under either name
    rw [hreference] at h
    exact h
  | true =>
    have hmeaning : base.resolve? o.scope (o.type.renamed name).name =
        base.resolve? o.scope o.type.name := ho.meaning hreference
    rw [hreference, if_pos rfl] at h
    rw [if_pos rfl, hmeaning]
    cases hr : base.resolve? o.scope o.type.name with
    | none => rw [hr] at h; cases h
    | some r =>
      rw [hr] at h
      exact h

/-- All types, by induction on their list: the classes stay the same meanwhile. -/
theorem foldlM_renamed {os : List Occurrence} (hclasses : table.SameClasses base)
    (hos : ∀ o ∈ os, o.Kept base name) (h : os.foldlM visit table = .ok next) :
    (os.map (·.renamed name)).foldlM visit table = .ok next := by
  induction os generalizing table with
  | nil => exact h
  | cons o os ih =>
    rw [List.foldlM_cons, Except.bind_eq_ok_iff] at h
    obtain ⟨mid, hvisit, hrest⟩ := h
    rw [List.map_cons, List.foldlM_cons, Except.bind_eq_ok_iff]
    refine ⟨mid, visit_renamed hclasses (hos o List.mem_cons_self) hvisit, ?_⟩
    exact ih (visit_eq_ok hvisit hclasses).1 (fun o' ho' => hos o' (List.mem_cons_of_mem _ ho'))
      hrest

/-- Names of types do not matter to what is collected. -/
theorem collect_renamed (file : InterfaceFile) : collect (file.renamed name) = collect file := by
  rw [collect, file.declarations_renamed, List.foldlM_map, collect]
  congr 1
  funext table d
  obtain ⟨scope, decl⟩ := d
  cases decl <;> rfl

end SymbolTable

/-! ## Classifying under other names -/

/-- Settling drops the same items. -/
theorem Item.settleAll_renamed (table : SymbolTable) (scope placed : List String)
    (items : List Item) : settleAll table scope placed (renamedAll name items) =
      (renamedAll name (settleAll table scope placed items).1,
        (settleAll table scope placed items).2) := by
  induction items using Item.induction generalizing scope placed with
  | nil => rfl
  | space head items rest ih ihrest =>
    simp only [renamedAll, renamed, settleAll, settle, ih, ihrest, List.singleton_append]
  | definition decl rest ih =>
    simp only [renamedAll, renamed, settleAll, settle, ih, List.singleton_append]
  | forward decl rest ih =>
    rw [renamedAll, renamed, settleAll, settle, settleAll, settle]
    dsimp only
    split <;> simp only [ih, renamedAll, renamed, List.singleton_append, List.nil_append]

variable {T : TypePosition → TypeExpr → TypeRef → Prop}

theorem Member.lowers_renamed_iff {d : MemberDecl} {m : Member} : Lowers T (d.renamed name) m ↔
    Lowers (fun position type => T position (type.renamed name)) d m := by
  cases d with
  | constructor decl =>
    rw [MemberDecl.renamed, lowers_constructor_iff, lowers_constructor_iff]
    simp only [List.forall₂_map_left_iff]
    rfl
  | method decl =>
    rw [MemberDecl.renamed, lowers_method_iff, lowers_method_iff]
    simp only [List.forall₂_map_left_iff]
    rfl

/-- Methods are told apart by their own names, which stay. -/
theorem ClassDecl.methodKeys_renamed (name : TypeExpr → QualifiedName) (decl : ClassDecl) :
    ((decl.renamed name).members.filterMap fun m => m.method?.map MethodDecl.key) =
      decl.members.filterMap fun m => m.method?.map MethodDecl.key := by
  rw [renamed, List.filterMap_map]
  congr 1
  funext m
  cases m <;> rfl

/-- What is modelled of a renamed class is what is modelled of the class, type by type. -/
theorem Class.lowers_renamed_iff {settings : CheckSettings} {scope : List String}
    {inherited : Option String} {decl : ClassDecl} {c : Class} :
    Lowers T settings scope inherited (decl.renamed name) c ↔
      Lowers (fun position type => T position (type.renamed name)) settings scope inherited decl
        c := by
  have hmembers : List.Forall₂ (Member.Lowers T) (decl.renamed name).members c.members ↔
      List.Forall₂ (Member.Lowers fun position type => T position (type.renamed name))
        decl.members c.members := by
    rw [ClassDecl.renamed, List.forall₂_map_left_iff]
    simp only [Member.lowers_renamed_iff]
  constructor
  · intro h
    exact { h with
      members := hmembers.mp h.members
      methods := decl.methodKeys_renamed name ▸ h.methods }
  · intro h
    exact { h with
      members := hmembers.mpr h.members
      methods := (decl.methodKeys_renamed name).symm ▸ h.methods }

theorem Module.lowers_renamed_iff {C : List String → Option String → ClassDecl → Class → Prop}
    {scope : List String} {inherited : Option String} {items : List Item} {m : Module} :
    Lowers C scope inherited (Item.renamedAll name items) m ↔
      Lowers (fun scope inherited decl => C scope inherited (decl.renamed name)) scope inherited
        items m := by
  -- the shape of the tree is kept, so each constructor of one side is that constructor of the other
  induction items using Item.induction generalizing scope inherited m with
  | nil =>
    constructor <;>
      · intro h
        cases h
        exact .nil
  | space head items rest ih ihrest =>
    constructor
    · intro h
      cases h with
      | space hinside hrest => exact .space (ih.mp hinside) (ihrest.mp hrest)
    · intro h
      cases h with
      | space hinside hrest => exact .space (ih.mpr hinside) (ihrest.mpr hrest)
  | definition decl rest ih =>
    constructor
    · intro h
      cases h with
      | definition hc hrest => exact .definition hc (ih.mp hrest)
    · intro h
      cases h with
      | definition hc hrest => exact .definition hc (ih.mpr hrest)
  | forward decl rest ih =>
    constructor
    · intro h
      cases h with
      | forward hrest => exact .forward (ih.mp hrest)
    · intro h
      cases h with
      | forward hrest => exact .forward (ih.mpr hrest)

/-- A file is classified alike under other names if each of its types is. -/
theorem Module.ofFile_renamed_iff {settings : CheckSettings} {table : SymbolTable}
    {file : InterfaceFile} {m : Module}
    (htypes : ∀ d ∈ file.definitions, ∀ type ∈ d.decl.types, ∀ position r,
      TypeRef.Lowers table position (type.renamed name) r ↔ TypeRef.Lowers table position type r) :
    ofFile settings table (file.renamed name) = .ok m ↔ ofFile settings table file = .ok m := by
  rw [ofFile, ofFile, InterfaceFile.renamed, Item.settleAll_renamed, Item.classifyAll_eq_ok_iff,
    Item.classifyAll_eq_ok_iff, lowers_renamed_iff]
  have hmem {scope : List String} {decl : ClassDecl}
      (hd : ⟨scope, .definition decl⟩ ∈
        Item.allDeclarations [] (Item.settleAll table [] [] file.items).1) :
      ⟨scope, decl⟩ ∈ file.definitions := by
    rw [table.declarations_settled] at hd
    exact InterfaceFile.mem_definitions_iff.mpr (settle_sublist.subset hd)
  constructor
  · intro h
    refine h.imp fun scope inherited decl hd c _ hc => ?_
    exact (Class.lowers_renamed_iff.mp hc).imp fun position type htype r _ =>
      (htypes _ (hmem hd) type htype position r).mp
  · intro h
    refine h.imp fun scope inherited decl hd c _ hc => Class.lowers_renamed_iff.mpr ?_
    exact hc.imp fun position type htype r _ => (htypes _ (hmem hd) type htype position r).mpr

end

/-! ## Under the paths of a table -/

namespace TypeExpr

variable {table : SymbolTable} {type : TypeExpr}

/-- A builtin goes by its own name. -/
theorem qualified_of_builtin {b : Builtin} (hb : type.builtin? = some b) :
    type.renamed (·.resolved table) = type := by
  rw [renamed, resolved, hb]

theorem resolved_of_reference? {r : Reference} (hb : type.builtin? = none)
    (hr : table.reference? type.id = some r) : type.resolved table = r.path := by
  rw [resolved, hb, hr]
  rfl

/-- No qualified name means a builtin. -/
theorem builtin?_of_isQualified (h : type.name.isQualified = true) : type.builtin? = none :=
  if_pos h

end TypeExpr

/-- A type under the path it was resolved to is classified as before, since only the path counts. -/
theorem TypeRef.lowers_qualified_iff {table : SymbolTable} {position : TypePosition}
    {type : TypeExpr} {r : TypeRef}
    (hbuiltin : (type.renamed (·.resolved table)).builtin? = type.builtin?) :
    Lowers table position (type.renamed (·.resolved table)) r ↔ Lowers table position type r := by
  cases hb : type.builtin? with
  | some b => rw [TypeExpr.qualified_of_builtin hb]
  | none =>
    rw [hb] at hbuiltin
    constructor
    · intro h
      cases h with
      | builtin hb' => rw [hbuiltin] at hb'; cases hb'
      | reference _ hr hw => exact .reference hb hr hw
    · intro h
      cases h with
      | builtin hb' => rw [hb] at hb'; cases hb'
      | reference _ hr hw => exact .reference hbuiltin hr hw

namespace SymbolTable

variable {file : InterfaceFile} {base table : SymbolTable}

/-- Where a name was found, its path means the same. -/
theorem Records.kept_qualified (h : Records file.declarations base) (hfile : file.Wellnamed)
    (hbound : Bound base (Occurrence.ofDefinitions file.definitions) table) :
    ∀ o ∈ Occurrence.ofDefinitions file.definitions, o.Kept base (·.resolved table) := by
  intro o ho
  have hname : o.type.name.Wellformed := by
    refine hfile.used o.type ?_
    rw [← Occurrence.map_type]
    exact List.mem_map_of_mem ho
  have hscope : ∀ s ∈ o.scope, isIdentifier s = true :=
    (Occurrence.forall_mem_iff fun scope _ => ∀ s ∈ scope, isIdentifier s = true).mpr
      (fun d hd _ _ => hfile.scope hd) o ho
  cases hb : o.type.builtin? with
  | some b =>
    refine ⟨by rw [TypeExpr.qualified_of_builtin hb], fun hclass => ?_⟩
    rw [TypeExpr.isClassReference_iff.mp hclass] at hb
    cases hb
  | none =>
    have hclass := TypeExpr.isClassReference_iff.mpr hb
    obtain ⟨r, hr, hreference⟩ := hbound.bound o ho hclass
    have hresolved := TypeExpr.resolved_of_reference? hb hreference
    rcases h.resolve?_path hfile.declared hname hscope hr with hsame | ⟨hlong, hagain⟩
    · -- a bare name that stays as it is, and so as little a builtin as before
      have hrenamed : o.type.renamed (·.resolved table) = o.type := by
        rw [TypeExpr.renamed, hresolved, hsame]
      exact ⟨by rw [hrenamed], fun _ => by rw [hresolved, hsame]⟩
    · refine ⟨?_, fun _ => by rw [hresolved, hagain, hr]⟩
      rw [hb]
      apply TypeExpr.builtin?_of_isQualified
      rw [TypeExpr.renamed, hresolved]
      exact hlong

end SymbolTable

/-! ## Files -/

/-- To write out every class name changes nothing about a file that resolves: its table, with all
that is recorded in it, is the same, and whatever the settings ask for, the check accepts it in the
same cases with the same module. -/
theorem InterfaceFile.qualified_unchanged {settings : GrammarSettings} {text : String}
    {file : InterfaceFile} (hfile : ofText settings text = .ok file) {table : SymbolTable}
    (htable : SymbolTable.ofFile file = .ok table) :
    SymbolTable.ofFile (file.qualified table) = .ok table ∧
    ∀ check m, Module.ofFile check table (file.qualified table) = .ok m ↔
      Module.ofFile check table file = .ok m := by
  obtain ⟨hspelled, hids⟩ := spelled_of_ofText hfile
  have hnamed := wellnamed_of_allSpelled hspelled
  obtain ⟨base, hbase, hrun, hbound⟩ := SymbolTable.bound_of_ofFile hids htable
  have hkept := (SymbolTable.records_of_collect hbase).2.1.kept_qualified hnamed hbound
  constructor
  · refine Except.bind_eq_ok_iff.mpr ⟨base, (SymbolTable.collect_renamed file).trans hbase, ?_⟩
    rw [SymbolTable.resolveAll_eq_foldlM, qualified, definitions_renamed,
      Occurrence.ofDefinitions_renamed]
    exact SymbolTable.foldlM_renamed (.refl base) hkept hrun
  · intro check m
    refine Module.ofFile_renamed_iff fun d hd type htype position r => ?_
    refine TypeRef.lowers_qualified_iff ?_
    exact (Occurrence.forall_mem_iff fun _ type =>
      (type.renamed (·.resolved table)).builtin? = type.builtin?).mp
        (fun o ho => (hkept o ho).builtin) d hd type htype

/-- In `geo::flat`, the bare `Base` is that of `geo` and not the one at the root, and is written so.
`Far` is at the root, where a bare name is all there is to write, and for its sake `other::Far` is
trusted. -/
def flatText : String :=
  "class Far;\nclass Base \x7b\x7d;\nnamespace geo \x7b\nclass Base \x7b\x7d;\n"
    ++ "namespace flat \x7b\nclass Point \x7b\n"
    ++ "Point(Base b, Far f, other::Far o, int n);\n\x7d;\n\x7d\n\x7d\n"

/-- Each type is written out as what it means, and the file resolves and compiles as before. -/
theorem InterfaceFile.flatText_qualified : ∃ file table,
    ofText default flatText = .ok file ∧ SymbolTable.ofFile file = .ok table ∧
    (file.qualified table).types.map (·.name.text) = ["geo::Base", "Far", "other::Far", "int"] ∧
    SymbolTable.ofFile (file.qualified table) = .ok table ∧
    ∀ check m, Module.ofFile check table (file.qualified table) = .ok m ↔
      Module.ofFile check table file = .ok m := by
  have hnames : (ofText default flatText).toOption.bind (fun file =>
      (SymbolTable.ofFile file).toOption.map fun table =>
        (file.qualified table).types.map (·.name.text)) =
      some ["geo::Base", "Far", "other::Far", "int"] := by
    decide +kernel
  obtain ⟨file, hread, hnames⟩ := Option.bind_eq_some_iff.mp hnames
  obtain ⟨table, hresolved, hnames⟩ := Option.map_eq_some_iff.mp hnames
  have hfile := Except.eq_ok_of_toOption hread
  have htable := Except.eq_ok_of_toOption hresolved
  exact ⟨file, table, hfile, htable, hnames, qualified_unchanged hfile htable⟩

end BindingIdl
