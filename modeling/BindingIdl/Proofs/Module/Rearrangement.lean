import BindingIdl.Proofs.Module.Placement

/-!
# The order of declarations does not matter

`Item.Rearranged` relates lists of items that differ in the order of items only, in the lists
themselves or in those of the namespaces inside. Ids, the surviving forward declarations and the
first fault all depend on the order. What does not is what a file declares and where:
`InterfaceFile.Alike` asks that two files agree in their declarations and in their placements, as
bags. Such files bind every reference to the same path, so each of their classes becomes the same
class, and the stubs are the same.

`InterfaceFile.module_rearranged` is the result: both files compile or neither does, and every
search by name has the same answer in both modules.
-/

namespace BindingIdl

open Declaration

/-! ## Rearranged items -/

/-- The items of one list are those of the other in some order, and so at each level below. -/
inductive Item.Rearranged : List Item → List Item → Prop where
  | nil : Rearranged [] []
  | cons {item items items'} : Rearranged items items' → Rearranged (item :: items) (item :: items')
  | space {head inside inside' rest} : Rearranged inside inside' →
      Rearranged (.space head inside :: rest) (.space head inside' :: rest)
  | swap {item other rest} : Rearranged (item :: other :: rest) (other :: item :: rest)
  | trans {items items' items''} : Rearranged items items' → Rearranged items' items'' →
      Rearranged items items''

namespace Item.Rearranged

variable {items items' : List Item}

theorem of_perm (h : items.Perm items') : Rearranged items items' := by
  induction h with
  | nil => exact .nil
  | cons item _ ih => exact .cons ih
  | swap item other rest => exact .swap
  | trans _ _ ih ih' => exact .trans ih ih'

/-- Rearranged items declare the same under each scope. -/
theorem declarations (h : Rearranged items items') (scope : List String) :
    (Item.allDeclarations scope items).Perm (Item.allDeclarations scope items') := by
  induction h generalizing scope with
  | nil => exact .nil
  | cons _ ih => exact (ih scope).append_left _
  | space _ ih => exact (ih _).append_right _
  | swap => exact List.perm_append_comm_assoc _ _ _
  | trans _ _ ih ih' => exact (ih scope).trans (ih' scope)

/-- The classes have the same namespaces around them. -/
theorem placements (h : Rearranged items items') (around : List NamespaceHead) :
    (Item.allPlacements around items).Perm (Item.allPlacements around items') := by
  induction h generalizing around with
  | nil => exact .nil
  | cons _ ih => exact (ih around).append_left _
  | space _ ih => exact (ih _).append_right _
  | swap => exact List.perm_append_comm_assoc _ _ _
  | trans _ _ ih ih' => exact (ih around).trans (ih' around)

end Item.Rearranged

/-! ## Files that declare the same -/

/-- The declarations and the placements of two files are the same, up to their order. -/
structure InterfaceFile.Alike (file file' : InterfaceFile) : Prop where
  declarations : file.declarations.Perm file'.declarations
  placements : file.placements.Perm file'.placements

/-- What a name denotes depends on which paths are declared, not on their order. -/
theorem Denotes.congr {defined forward defined' forward' : List QualifiedName}
    {scope : List String} {name p : QualifiedName} (h : Denotes defined forward scope name p)
    (hdefined : ∀ q, q ∈ defined ↔ q ∈ defined') (hforward : ∀ q, q ∈ forward ↔ q ∈ forward') :
    Denotes defined' forward' scope name p := by
  cases h with
  | absolute hq hknown => exact .absolute hq (by rwa [← hdefined, ← hforward])
  | rescued hq hmem hnot => exact .rescued hq ((hforward _).mp hmem) (by rwa [← hdefined])
  | enclosing hspaces hknown hlongest =>
    refine .enclosing hspaces (by rwa [← hdefined, ← hforward]) fun longer hlonger hlt => ?_
    rw [← hdefined, ← hforward]
    exact hlongest longer hlonger hlt

namespace InterfaceFile.Alike

variable {file file' : InterfaceFile} {table table' : SymbolTable}

theorem symm (h : file.Alike file') : file'.Alike file :=
  ⟨h.declarations.symm, h.placements.symm⟩

/-- What is declared is all that counts for `Alike`. -/
theorem of_rearranged (h : Item.Rearranged file.items file'.items) : file.Alike file' :=
  ⟨h.declarations [], h.placements []⟩

theorem definedPaths (h : file.Alike file') : file.definedPaths.Perm file'.definedPaths :=
  (h.declarations.filter _).map _

theorem forwardPaths (h : file.Alike file') : file.forwardPaths.Perm file'.forwardPaths :=
  (h.declarations.filter _).map _

theorem definitions (h : file.Alike file') : file.definitions.Perm file'.definitions :=
  h.declarations.filterMap _

theorem types (h : file.Alike file') : file.types.Perm file'.types :=
  h.definitions.flatMap_right _

theorem wellnamed (h : file.Alike file') (hfile : file.Wellnamed) : file'.Wellnamed where
  declared d hd := hfile.declared d (h.declarations.mem_iff.mpr hd)
  used type htype := hfile.used type (h.types.mem_iff.mpr htype)

/-- What a name denotes is a matter of which paths are declared, not of their order. -/
theorem denotes_iff (h : file.Alike file') {scope : List String} {name p : QualifiedName} :
    Denotes file.definedPaths file.forwardPaths scope name p ↔
      Denotes file'.definedPaths file'.forwardPaths scope name p := by
  constructor
  · exact fun hp => hp.congr (fun q => h.definedPaths.mem_iff) fun q => h.forwardPaths.mem_iff
  · exact fun hp => hp.congr (fun q => h.symm.definedPaths.mem_iff)
      fun q => h.symm.forwardPaths.mem_iff

/-- A class is classified alike under both tables, since they agree on what its types mean. -/
theorem classify (h : file.Alike file') (hfollows : table.Follows file)
    (hfollows' : table'.Follows file') {settings : CheckSettings} {p : Placement}
    (hp : p ∈ file.placements) {c : Class} (hc : p.classify table settings = .ok c) :
    p.classify table' settings = .ok c := by
  rw [Placement.classify, Class.ofDecl_eq_ok_iff] at hc ⊢
  have hd := mem_definitions_of_placement hp
  exact hc.imp fun position type htype r _ => .transfer hfollows hfollows' hd
    (h.definitions.mem_iff.mp hd) htype h.denotes_iff.mp fun q => h.definedPaths.mem_iff

variable {settings : CheckSettings} {m m' : Module}

/-- Either file has a module if the other one does. -/
theorem exists_module (h : file.Alike file') (hfile : file.Wellnamed)
    (hids : (file.types.map (·.id)).Nodup) (hm : file.module settings = .ok m) :
    ∃ m', file'.module settings = .ok m' := by
  obtain ⟨table, htable, hmodule⟩ := Except.bind_eq_ok_iff.mp hm
  obtain ⟨hdistinct, -, hfollows, hdenotes⟩ := SymbolTable.follows_of_ofFile hfile hids htable
  have hfile' := h.wellnamed hfile
  have hids' : (file'.types.map (·.id)).Nodup := (h.types.map _).nodup_iff.mp hids
  have hdistinct' : Distinct file'.declarations := by
    rw [distinct_iff_nodup hfile.declared] at hdistinct
    rw [distinct_iff_nodup hfile'.declared]
    exact h.definedPaths.nodup_iff.mp hdistinct
  obtain ⟨table', htable'⟩ := SymbolTable.exists_of_denotes hfile' hids' hdistinct'
    fun d hd type htype hclass => by
      obtain ⟨p, hp⟩ := hdenotes d (h.definitions.mem_iff.mpr hd) type htype hclass
      exact ⟨p, h.denotes_iff.mp hp⟩
  obtain ⟨-, -, hfollows', -⟩ := SymbolTable.follows_of_ofFile hfile' hids' htable'
  obtain ⟨m', hm'⟩ : ∃ m', Module.ofFile settings table' file' = .ok m' := by
    rw [Module.exists_ofFile_eq_ok_iff]
    intro p hp
    have hp := h.placements.mem_iff.mpr hp
    obtain ⟨c, hc⟩ := Module.exists_ofFile_eq_ok_iff.mp ⟨m, hmodule⟩ p hp
    exact ⟨c, h.classify hfollows hfollows' hp hc⟩
  exact ⟨m', Except.bind_eq_ok_iff.mpr ⟨table', htable', hm'⟩⟩

/-- Every class of the one tree is in the other. -/
theorem mem_allClasses (h : file.Alike file') (hm : Classified settings file table m)
    (hm' : Classified settings file' table' m') {c : Class} (hc : c ∈ m.allClasses) :
    c ∈ m'.allClasses := by
  rw [hm'.mem_allClasses_iff]
  rcases hm.mem_allClasses_iff.mp hc with ⟨p, hp, hpc⟩ | ⟨q, ⟨hforward, hdefined⟩, hqc⟩
  · exact .inl ⟨p, h.placements.mem_iff.mp hp, h.classify hm.follows hm'.follows hp hpc⟩
  · refine .inr ⟨q, ⟨h.forwardPaths.mem_iff.mp hforward, ?_⟩, hqc⟩
    rwa [← h.definedPaths.mem_iff]

/-- A path leads to the same class in both modules, or to none. -/
theorem lookup_eq (h : file.Alike file') (hm : Classified settings file table m)
    (hm' : Classified settings file' table' m') (name : String) :
    m.lookup name = m'.lookup name := by
  apply Option.ext
  intro c
  rw [Module.lookup_eq_some_iff hm.names_nodup, Module.lookup_eq_some_iff hm'.names_nodup]
  apply and_congr_left
  intro _
  exact ⟨h.mem_allClasses hm hm', h.symm.mem_allClasses hm' hm⟩

end InterfaceFile.Alike

/-- Items may stand in any order: rearranged files compile together, and to modules in which every
search finds the same. -/
theorem InterfaceFile.module_rearranged {file file' : InterfaceFile}
    (h : Item.Rearranged file.items file'.items) (hfile : file.Wellnamed)
    (hids : (file.types.map (·.id)).Nodup) (settings : CheckSettings) :
    ((∃ m, file.module settings = .ok m) ↔ ∃ m', file'.module settings = .ok m') ∧
    ∀ m m', file.module settings = .ok m → file'.module settings = .ok m' →
      ∀ name, m.lookup name = m'.lookup name := by
  have halike : file.Alike file' := .of_rearranged h
  have hfile' := halike.wellnamed hfile
  have hids' : (file'.types.map (·.id)).Nodup := (halike.types.map _).nodup_iff.mp hids
  constructor
  · constructor
    · rintro ⟨m, hm⟩
      exact halike.exists_module hfile hids hm
    · rintro ⟨m', hm'⟩
      exact halike.symm.exists_module hfile' hids' hm'
  · intro m m' hm hm' name
    obtain ⟨table, -, hclassified⟩ := classified_of_module hfile hids hm
    obtain ⟨table', -, hclassified'⟩ := classified_of_module hfile' hids' hm'
    exact halike.lookup_eq hclassified hclassified' name

/-- A class that is forward declared before its definition, and a second class that takes it and a
root stub as arguments. -/
def pointItems : List Item :=
  let span : Span := ⟨0, 1, 1⟩
  let params : List ParameterDecl :=
    [⟨2, "p", ⟨1, false, .bare "Point", none, .value, span⟩⟩,
      ⟨4, "b", ⟨3, false, .bare "Base", none, .pointer, span⟩⟩]
  [.forward ⟨0, "Point", span⟩, .definition ⟨5, "Point", none, [], span⟩,
    .definition ⟨7, "Line", none, [.constructor ⟨6, params, span⟩], span⟩]

/-- The file with the forward declaration in front, at the root and in the namespace. -/
def forwardFirst : InterfaceFile :=
  ⟨[.forward ⟨8, "Base", default⟩, .space ⟨9, some "geo", none, none, default⟩ pointItems]⟩

/-- The same items, both levels reversed. -/
def forwardLast : InterfaceFile :=
  ⟨[.space ⟨9, some "geo", none, none, default⟩ pointItems.reverse, .forward ⟨8, "Base", default⟩]⟩

/-- The modules differ in the order of their classes, and every lookup answers the same. -/
theorem InterfaceFile.forwardFirst_module :
    Item.Rearranged forwardFirst.items forwardLast.items ∧ forwardFirst.Wellnamed ∧
      (forwardFirst.types.map (·.id)).Nodup ∧
      ∃ m m', forwardFirst.module default = .ok m ∧ forwardLast.module default = .ok m' ∧
        m ≠ m' ∧ ∀ name, m.lookup name = m'.lookup name := by
  have hrearranged : Item.Rearranged forwardFirst.items forwardLast.items :=
    .trans .swap (.space (.of_perm pointItems.reverse_perm.symm))
  have hfile : forwardFirst.Wellnamed := ⟨by decide, by decide⟩
  have hids : (forwardFirst.types.map (·.id)).Nodup := by decide
  obtain ⟨hcompile, hlookup⟩ := module_rearranged hrearranged hfile hids default
  have hok : (forwardFirst.module default).toOption.isSome = true := by decide +kernel
  have hdiffer :
      (forwardFirst.module default).toOption ≠ (forwardLast.module default).toOption := by
    decide +kernel
  cases hm : forwardFirst.module default with
  | error d => rw [hm] at hok; cases hok
  | ok m =>
    obtain ⟨m', hm'⟩ := hcompile.mp ⟨m, hm⟩
    refine ⟨hrearranged, hfile, hids, m, m', rfl, hm', ?_, hlookup m m' hm hm'⟩
    rintro rfl
    rw [hm, hm'] at hdiffer
    exact hdiffer rfl

end BindingIdl
