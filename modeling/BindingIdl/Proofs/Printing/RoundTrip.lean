import BindingIdl.Proofs.Grammar.Completeness
import BindingIdl.Proofs.Printing.Derivation

/-!
# Reading a printed module back

The two halves meet at `Module.Canonical`: accepted modules are canonical, and a canonical module is
what its own text is read as (`Module.Canonical.ofText_printed`). Of the second half, this is what
comes after the derivation of the text. Every name in the printed signatures is a path, so it
denotes itself; every forward declaration is needed, so all of them are kept; and each type is
classified as what it was printed from.
-/

namespace BindingIdl

open Declaration Grammar
open Piece (allTokens)

/-! ## Types -/

/-- A builtin that is written plainly is legal where it may be at all. -/
theorem Builtin.wrapping_plain {b : Builtin} {position : TypePosition} {type : TypeExpr}
    (hconst : type.isConst = false) (hwrapper : type.wrapper = none)
    (hmark : type.indirection = .value) (hvoid : b = .void → position = .returned) :
    b.wrapping position type = .ok b.kind := by
  rw [wrapping, hwrapper, hmark, hconst, if_neg (by decide)]
  by_cases hb : b = .void
  · rw [if_pos hb, if_pos (by simp [hvoid hb])]
  · rw [if_neg hb]

/-- The wrapping of a class depends on no more than its printed form shows. -/
theorem classWrapping_printed {position : TypePosition} {type written : TypeExpr}
    {wrapped : WrappedKind} (h : classWrapping position written = .ok wrapped)
    (hconst : type.isConst = decide (wrapped.kind = .classConstReference))
    (hwrapper : type.wrapper.isSome = decide (wrapped.kind = .sharedPointer))
    (hmark : type.indirection = wrapped.kind.mark) :
    classWrapping position type = .ok wrapped := by
  unfold classWrapping at h
  split at h <;> cases h <;>
    simp [classWrapping, hconst, hwrapper, hmark, TypeKind.mark]

/-- What is printed for a class is read as a class name, and only that. -/
theorem TypeRef.Printed.isClassReference {position : TypePosition} {type : TypeExpr} {r : TypeRef}
    (h : r.Printed position type) : type.isClassReference = r.kind.isClass := by
  obtain ⟨hcanonical, hname, -⟩ := h
  rw [TypeExpr.isClassReference, TypeExpr.builtin?, hname]
  cases hcanonical with
  | @builtin b s hb =>
    rw [show (ofBuiltin b.kind s).kind.isClass = false from b.isClass_kind]
    show (Builtin.ofName? s).isNone = false
    rw [hb]
    rfl
  | @reference _ wrapped reference hw _ hbare =>
    rw [show (ofReference wrapped position reference).kind.isClass = true from
      classWrapping_isClass hw]
    show (if reference.path.isQualified then none else Builtin.ofName? reference.path.name).isNone =
      true
    cases hq : reference.path.isQualified with
    | true => rfl
    | false => rw [if_neg Bool.false_ne_true, hbare hq, Option.isNone_none]

/-- A type is classified as what it was printed from, where the table knows its path. -/
theorem TypeRef.Printed.lowers {table : SymbolTable} {position : TypePosition} {type : TypeExpr}
    {r : TypeRef} (h : r.Printed position type)
    (href : r.kind.isClass = true → ∃ reference, table.reference? type.id = some reference ∧
      reference.path = r.path ∧ (reference.external = true ↔ r.origin = some .external)) :
    TypeRef.Lowers table position type r := by
  have hclass := h.isClassReference
  obtain ⟨hcanonical, hname, hconst, hwrapper, hmark⟩ := h
  cases hcanonical with
  | @builtin b s hb hvoid =>
    have hplain : b.wrapping position type = .ok b.kind := by
      refine Builtin.wrapping_plain ?_ ?_ ?_ hvoid
      · rw [hconst]
        cases b <;> rfl
      · rw [hwrapper]
        cases b <;> rfl
      · rw [hmark]
        cases b <;> rfl
    have hbuiltin : type.builtin? = some b := by
      rw [TypeExpr.builtin?, hname]
      exact hb
    have hlowers : TypeRef.Lowers table position type _ := .builtin hbuiltin hplain
    rwa [hname] at hlowers
  | @reference written wrapped reference hw hwell =>
    obtain ⟨known, hknown, hpath, hexternal⟩ := href (classWrapping_isClass hw)
    have hwrapping : classWrapping position type = .ok wrapped := by
      refine classWrapping_printed hw hconst ?_ hmark
      rw [hwrapper]
      by_cases hshared : wrapped.kind = .sharedPointer <;> simp [ofReference, hshared]
    have hbuiltin : type.builtin? = none :=
      Option.isNone_iff_eq_none.mp (hclass.trans (classWrapping_isClass hw))
    -- the two may differ in the symbol they name, which the tree does not keep
    have hsame : ofReference wrapped position known = ofReference wrapped position reference := by
      have hpath' : known.path = reference.path := hpath
      have hexternal' : known.external = reference.external := by
        rw [Bool.eq_iff_iff, hexternal]
        cases hext : reference.external <;> simp [ofReference, hext]
      rw [ofReference, hpath', hexternal']
      rfl
    exact hsame ▸ .reference hbuiltin hknown hwrapping

/-! ## Files -/

/-- What is known of the file that a printed module is read as. -/
structure Reprinted (items : List Item) (m : Module) : Prop where
  read : InterfaceFile.ofText default m.text = .ok ⟨items⟩
  lowers : Module.Lowers Class.Printed [] none items m
  spelled : Item.AllSpelled items
  ids : (TypeExpr.ids (InterfaceFile.types ⟨items⟩)).Nodup

/-- The text of a canonical module is read as items that lower to it. -/
theorem Module.Canonical.reprinted {m : Module} (h : m.Canonical) : ∃ items, Reprinted items m := by
  obtain ⟨items, hfile, hlowers⟩ := h.derived
  have hread : InterfaceFile.ofText default m.text = .ok ⟨items⟩ :=
    InterfaceFile.ofText_of_isFile h.tokens_text hfile
  obtain ⟨hspelled, hids⟩ := InterfaceFile.spelled_of_ofText hread
  exact ⟨items, hread, hlowers, hspelled, hids⟩

namespace Reprinted

variable {items : List Item} {m : Module}

theorem wellnamed (h : Reprinted items m) : InterfaceFile.Wellnamed ⟨items⟩ :=
  InterfaceFile.wellnamed_of_allSpelled h.spelled

theorem nodup_paths (h : Reprinted items m) (hm : m.Canonical) :
    ((Item.allDeclarations [] items).map Scoped.path).Nodup :=
  h.lowers.paths.nodup_iff.mpr hm.distinct

/-- No two classes of a canonical module share a path, so none is a duplicate when it is read
again. -/
theorem distinct (h : Reprinted items m) (hm : m.Canonical) :
    (Item.allDeclarations [] items).Pairwise fun d e => d.path.text ≠ e.path.text := by
  refine (List.pairwise_map.mp (h.nodup_paths hm)).imp_of_mem fun hd he hne htext => hne ?_
  exact QualifiedName.text_injective (h.wellnamed.declared _ hd) (h.wellnamed.declared _ he) htext

/-- A class name in the tree means in the printed file what it means in the tree. -/
theorem denotes (h : Reprinted items m) (hm : m.Canonical) {c : Class} (hc : c ∈ m.allClasses)
    {r : TypeRef} (hr : r ∈ c.types) (hkind : r.kind.isClass = true) :
    Denotes (InterfaceFile.definedPaths ⟨items⟩) (InterfaceFile.forwardPaths ⟨items⟩) c.namespaces
        r.path r.path ∧
      (r.origin = some .external ↔ r.path ∉ InterfaceFile.definedPaths ⟨items⟩) := by
  obtain ⟨hdenotes, horigin⟩ := hm.references c hc r hr hkind
  refine ⟨hdenotes.self (fun q => (h.lowers.definedPaths q).symm)
    fun q _ => (h.lowers.forwardPaths q).symm, ?_⟩
  rw [horigin, h.lowers.definedPaths]
  rfl

/-- Every type in the printed signatures comes from one in the tree. -/
theorem exists_type (h : Reprinted items m) {d : Scoped ClassDecl}
    (hd : d ∈ InterfaceFile.definitions ⟨items⟩) {type : TypeExpr} (htype : type ∈ d.decl.types) :
    ∃ c ∈ m.allClasses, c.namespaces = d.scope ∧ ∃ r ∈ c.types, ∃ position,
      r.Printed position type := by
  obtain ⟨c, hc, hof⟩ := h.lowers.exists_class (InterfaceFile.mem_definitions_iff.mp hd)
  cases hof with
  | definition hclass =>
    obtain ⟨r, hr, position, hprinted⟩ := exists_of_forall₂ hclass.types.flip htype
    exact ⟨c, hc, hclass.namespaces, r, hr, position, hprinted⟩

/-- What is reprinted resolves, as each path in it is declared. -/
theorem exists_table (h : Reprinted items m) (hm : m.Canonical) :
    ∃ table, SymbolTable.ofFile ⟨items⟩ = .ok table := by
  have hdistinct : Distinct (InterfaceFile.declarations ⟨items⟩) :=
    (h.distinct hm).imp fun hne _ _ => hne
  refine SymbolTable.exists_of_denotes h.wellnamed h.ids hdistinct fun d hd type htype hclass => ?_
  obtain ⟨c, hc, hscope, r, hr, position, hprinted⟩ := h.exists_type hd htype
  rw [hprinted.isClassReference] at hclass
  rw [← hscope, hprinted.name]
  exact ⟨_, (h.denotes hm hc hr hclass).1⟩

variable {table : SymbolTable}

/-- Every forward declaration of a printed module is needed. -/
theorem settled (h : Reprinted items m) (hm : m.Canonical)
    (hrecords : table.Records (InterfaceFile.declarations ⟨items⟩)) :
    (Item.settleAll table [] [] items).1 = items := by
  refine Item.settleAll_eq_self (h.distinct hm) (fun d _ => List.not_mem_nil)
    fun d hd hforward => ?_
  have hwell := h.wellnamed.declared
  refine (hrecords.isForwardOnly_iff hwell (hwell d hd)).mpr
    ⟨mem_forwardPaths.mpr ⟨d, hd, hforward, rfl⟩, fun hdefined => ?_⟩
  -- a class with a body would be a second declaration of the path
  obtain ⟨e, he, hdef, hpath⟩ := mem_definedPaths.mp hdefined
  obtain rfl : e = d := List.inj_on_of_nodup_map (h.nodup_paths hm) he hd hpath
  rw [hforward] at hdef
  cases hdef

/-- Every printed type is classified as what it was printed from. -/
theorem classified (h : Reprinted items m) (hm : m.Canonical)
    (hfollows : table.Follows ⟨items⟩) :
    Module.Lowers (Class.Lowers (TypeRef.Lowers table) default) [] none items m := by
  refine h.lowers.imp fun scope inherited decl hd c hc hclass => ?_
  refine hclass.imp fun position type htype r hr hprinted => hprinted.lowers fun hkind => ?_
  have hdecl : ⟨scope, decl⟩ ∈ InterfaceFile.definitions ⟨items⟩ :=
    InterfaceFile.mem_definitions_iff.mpr hd
  obtain ⟨reference, href, hdenotes, hexternal⟩ :=
    hfollows.reference _ hdecl type htype (hprinted.isClassReference.trans hkind)
  obtain ⟨hself, horigin⟩ := h.denotes hm hc hr hkind
  -- the name was printed as a path, and denotes that path and nothing else
  rw [hprinted.name] at hdenotes
  rw [hclass.namespaces] at hself
  have hpath : reference.path = r.path := hdenotes.unique hself
  exact ⟨reference, href, hpath, by rw [hexternal, horigin, hpath]⟩

end Reprinted

/-- A canonical module is what its own text is read as. -/
theorem Module.Canonical.ofText_printed {m : Module} (h : m.Canonical) :
    Module.ofText default m.text = .ok m := by
  obtain ⟨items, hitems⟩ := h.reprinted
  obtain ⟨table, htable⟩ := hitems.exists_table h
  obtain ⟨-, hrecords, hfollows, -⟩ :=
    SymbolTable.follows_of_ofFile hitems.wellnamed hitems.ids htable
  have hmodule : InterfaceFile.module default ⟨items⟩ = .ok m := by
    rw [InterfaceFile.module, htable]
    refine Item.classifyAll_eq_ok_iff.mpr ?_
    rw [hitems.settled h hrecords]
    exact hitems.classified h hfollows
  have hread : InterfaceFile.ofText (default : Settings).grammar m.text = .ok ⟨items⟩ := hitems.read
  rw [Module.ofText, hread]
  exact congrArg (Except.mapError _) hmodule

/-- Printing undoes reading. Whatever text and settings a module was read with, its canonical text
is read as the same module with the settings that everything defaults to. -/
theorem Module.ofText_text {settings : Settings} {text : String} {m : Module}
    (h : Module.ofText settings text = .ok m) : Module.ofText default m.text = .ok m :=
  (canonical_of_ofText h).ofText_printed

/-- A text that the usual settings refuse. In what is printed of it a forward declaration is gone,
and what its names mean is written out. -/
def crowdedText : String :=
  "class Base;\nnamespace geo \x7b class Point;\nclass Point \x7b\n"
    ++ "Point(); Point(const far::Base& b, Point p);\n\x7d; \x7d\n"

/-- The text that is printed of it. -/
def printedText : String :=
  "class Base;\nnamespace geo \x7b\nclass Point \x7b\n"
    ++ "  Point();\n  Point(const far::Base& b, geo::Point p);\n"
    ++ "\x7d;\n\x7d///\\namespace geo\n"

/-- Read under the usual settings, what is printed gives the same module. -/
theorem Module.printedText_read_back : ∃ m, Module.ofText ⟨⟨false⟩, ⟨true⟩⟩ crowdedText = .ok m ∧
    m.text = printedText ∧ Module.ofText default printedText = .ok m := by
  have hprinted : (Module.ofText ⟨⟨false⟩, ⟨true⟩⟩ crowdedText).toOption.map Module.text =
      some printedText := by
    decide +kernel
  cases hrun : Module.ofText ⟨⟨false⟩, ⟨true⟩⟩ crowdedText with
  | error ds => rw [hrun] at hprinted; cases hprinted
  | ok m =>
    rw [hrun] at hprinted
    have htext : m.text = printedText := Option.some.inj hprinted
    exact ⟨m, rfl, htext, htext ▸ ofText_text hrun⟩

end BindingIdl
