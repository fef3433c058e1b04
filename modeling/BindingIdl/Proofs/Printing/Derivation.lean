import BindingIdl.Proofs.Printing.Layout

/-!
# The derivation of a printed module

The tokens of a printed module are derived by the grammar, with a tree that lowers to the module
again: `Module.Canonical.derived`. Types are compared by how they are printed (`TypeRef.Printed`);
what their names mean comes later.
-/

namespace BindingIdl

open Grammar
open Piece hiding space name header text

variable {p : Position} {n : NodeId}

/-! ## Names and types -/

/-- A printed name is derived from its own tokens. -/
theorem QualifiedName.isName (q : QualifiedName) (p : Position) : IsName (tokens p q.pieces) q := by
  obtain ⟨spaces, name⟩ := q
  induction spaces generalizing p with
  | nil =>
    have hname : IsName (tokens p [.name name]) (.bare (String.ofList name.toList)) := .bare rfl
    rwa [String.ofList_toList] at hname
  | cons s spaces ih =>
    have hname : IsName (tokens p (QualifiedName.pieces ⟨s :: spaces, name⟩))
        ⟨String.ofList s.toList :: spaces, name⟩ := .qualified rfl rfl (ih _)
    rwa [String.ofList_toList] at hname

/-- The mark of a type of some kind. -/
def TypeKind.mark : TypeKind → Indirection
  | classConstReference => .reference
  | rawPointer => .pointer
  | primitive _ | eigenMatrix | eigenVector | classValue | sharedPointer => .value

/-- The type is what `r` is printed as. -/
structure TypeRef.Printed (position : TypePosition) (type : TypeExpr) (r : TypeRef) : Prop where
  canonical : r.Canonical position
  name : type.name = r.path
  isConst : type.isConst = decide (r.kind = .classConstReference)
  wrapper : type.wrapper = if r.kind = .sharedPointer then some ⟨["boost"], pointerName⟩ else none
  indirection : type.indirection = r.kind.mark

/-- A printed type is derived, under the next free id, as one that is classified as it was. -/
theorem TypeRef.Canonical.isType {position : TypePosition} {r : TypeRef}
    (h : r.Canonical position) (n : NodeId) (p : Position) :
    ∃ type, IsType n (tokens p r.pieces) type (n + 1) ∧ r.Printed position type := by
  have hname := r.path.isName
  rw [pieces, tokens_append, tokens_append]
  cases hk : r.kind with
  | sharedPointer =>
    have hwrapper := QualifiedName.isName ⟨["boost"], pointerName⟩ p
    have hhead (p₁ p₂ : Position) : IsTypeHead (tokens p TypeKind.sharedPointer.front ++
        tokens p₁ r.path.pieces ++ tokens p₂ TypeKind.sharedPointer.back) r.path
        (some ⟨["boost"], pointerName⟩) :=
      .shared hwrapper rfl rfl (hname p₁) rfl
    have htype (p₁ p₂ : Position) := IsType.mk (n := n) .absent (hhead p₁ p₂) .value
    simp only [List.nil_append, List.append_nil] at htype
    refine ⟨_, htype _ _, h, rfl, ?_, ?_, ?_⟩ <;> rw [hk] <;> rfl
  | classConstReference =>
    refine ⟨_, .mk (.present rfl) (.plain (hname _)) (.reference rfl), h, rfl, ?_, ?_, ?_⟩ <;>
      rw [hk] <;> rfl
  | rawPointer =>
    refine ⟨_, .mk .absent (.plain (hname _)) (.pointer rfl), h, rfl, ?_, ?_, ?_⟩ <;>
      rw [hk] <;> rfl
  | _ =>
    refine ⟨_, .mk .absent (.plain (hname _)) .value, h, rfl, ?_, ?_, ?_⟩ <;> rw [hk] <;> rfl

/-! ## Members -/

theorem Argument.Canonical.isParameter {a : Argument} (h : a.Canonical) (n : NodeId)
    (p : Position) : ∃ param, IsParameter n (tokens p a.pieces) param (n + 2) ∧
      Argument.Lowers TypeRef.Printed param a := by
  obtain ⟨type, htype, hprinted⟩ := h.type.isType n p
  rw [pieces, tokens_append]
  exact ⟨_, .mk htype rfl, by simp, hprinted⟩

/-- By induction on the arguments, with a comma between any two. -/
theorem Argument.isParameterList {args : List Argument} (h : ∀ a ∈ args, a.Canonical)
    (hne : args ≠ []) (n : NodeId) (p : Position) :
    ∃ params n', IsParameterList n (tokens p (separated args)) params n' ∧
      List.Forall₂ (Argument.Lowers TypeRef.Printed) params args := by
  induction args using separated.induct generalizing n p with
  | case1 => exact absurd rfl hne
  | case2 a =>
    obtain ⟨param, hparam, hlowers⟩ := (h a List.mem_cons_self).isParameter n p
    exact ⟨_, _, .last hparam, .cons hlowers .nil⟩
  | case3 a b rest ih =>
    obtain ⟨param, hparam, hlowers⟩ := (h a List.mem_cons_self).isParameter n p
    rw [separated, tokens_append]
    obtain ⟨params, n', hparams, hrest⟩ := ih (fun a' ha' => h a' (List.mem_cons_of_mem _ ha'))
      (List.cons_ne_nil b rest) (n + 2) _
    exact ⟨_, _, .more hparam rfl hparams, .cons hlowers hrest⟩

theorem Argument.isParameters {args : List Argument} (h : ∀ a ∈ args, a.Canonical) (n : NodeId)
    (p : Position) : ∃ params n', IsParameters n (tokens p (listPieces args)) params n' ∧
      List.Forall₂ (Argument.Lowers TypeRef.Printed) params args := by
  cases args with
  | nil => exact ⟨[], n, .none rfl rfl, .nil⟩
  | cons a rest =>
    obtain ⟨params, n', hparams, hlowers⟩ := isParameterList h (List.cons_ne_nil a rest) n
      (p.afterAll (fixed .openParen).chars)
    refine ⟨params, n', ?_, hlowers⟩
    rw [listPieces, tokens_append]
    exact .some rfl hparams rfl

/-- A printed member is derived; its types are those that were printed. -/
theorem Member.Canonical.isMember {m : Member} (h : m.Canonical) (owner : String) (n : NodeId)
    (p : Position) : ∃ read n', IsMember owner n (tokens p (m.pieces owner)) read n' ∧
      Member.Lowers TypeRef.Printed read.decl m := by
  cases h with
  | @constructor args hargs =>
    obtain ⟨params, n', hparams, hlowers⟩ := Argument.isParameters hargs n (p.afterAll owner.toList)
    rw [Member.pieces, tokens_append]
    exact ⟨_, _, .constructor rfl (String.ofList_toList) hparams rfl, .constructor hlowers⟩
  | @method name args returns isConst _ hinitial hargs hreturns =>
    obtain ⟨type, htype, hprinted⟩ := hreturns.isType n p
    rw [Member.pieces, tokens_append, tokens_append, tokens_append, tokens_space, tokens_name]
    obtain ⟨params, n', hparams, hlowers⟩ := Argument.isParameters hargs (n + 1) _
    have hconst (q : Position) :
        IsConst (tokens q (if isConst then [.space, .fixed .constKeyword] else [])) isConst := by
      cases isConst with
      | true => exact .present rfl
      | false => exact .absent
    exact ⟨_, _, .method htype rfl hinitial hparams (hconst _) rfl, .method rfl hlowers hprinted⟩
  | @staticMethod name args returns _ hinitial hargs hreturns =>
    obtain ⟨type, htype, hprinted⟩ := hreturns.isType n
      ((p.afterAll (fixed .staticKeyword).chars).after ' ')
    rw [Member.pieces, tokens_append, tokens_append, tokens_space, tokens_name]
    obtain ⟨params, n', hparams, hlowers⟩ := Argument.isParameters hargs (n + 1) _
    exact ⟨_, _, .staticMethod rfl htype rfl hinitial hparams rfl,
      .staticMethod rfl hlowers hprinted⟩

/-! ## Lines of members -/

/-- The tokens of one line span that line. -/
theorem line_spanOf {ts : List Token} (hne : ts ≠ []) {line : Nat}
    (h : ∀ t ∈ ts, t.span.line = line) : (spanOf ts).line = line := by
  cases ts with
  | nil => exact absurd rfl hne
  | cons t ts =>
    have hlast : (ts.getLastD t).span.line = line := h _ List.getLastD_mem_cons
    rw [spanOf, Span.cover]
    dsimp only
    split
    · exact h t List.mem_cons_self
    · exact hlast

/-- A member whose tokens are on one line starts and ends there. -/
theorem Grammar.IsMember.line {owner : String} {n' : NodeId} {ts : List Token} {read : ReadMember}
    (h : IsMember owner n ts read n') {line : Nat} (hts : ∀ t ∈ ts, t.span.line = line) :
    read.decl.span.line = line ∧ read.endLine = line := by
  cases h with
  | constructor => exact ⟨line_spanOf (by simp) hts, hts _ (by simp)⟩
  | method => exact ⟨line_spanOf (by simp) hts, hts _ (by simp)⟩
  | staticMethod => exact ⟨line_spanOf (by simp) hts, hts _ (by simp)⟩

/-- Members on lines of their own are not crowded. -/
theorem crowded_cons_eq_nil {first : ReadMember} {rest : List ReadMember}
    (hrest : crowded rest = []) (h : ∀ second ∈ rest.head?, second.decl.span.line ≠ first.endLine) :
    crowded (first :: rest) = [] := by
  cases rest with
  | nil => rfl
  | cons second rest => rw [crowded, if_neg (h second rfl), hrest]

/-- Each member has a line of its own, so none is crowded. -/
theorem Member.isMembers {members : List Member} (h : ∀ m ∈ members, m.Canonical) {owner : String}
    (howner : isIdentifier owner = true) (n : NodeId) (p : Position) :
    ∃ reads n', IsMembers owner n (allTokens p (members.map (·.line owner))) reads n' ∧
      List.Forall₂ (Member.Lowers TypeRef.Printed) (reads.map (·.decl)) members ∧
      crowded reads = [] ∧ ∀ read ∈ reads.head?, read.decl.span.line = p.line := by
  induction members generalizing n p with
  | nil => exact ⟨[], n, .nil, .nil, rfl, fun read hread => by cases hread⟩
  | cons m members ih =>
    have hm := h m List.mem_cons_self
    obtain ⟨read, n', hread, hlowers⟩ := hm.isMember owner n ((p.after ' ').after ' ')
    obtain ⟨reads, n'', hreads, hrest, hcrowded, hfirst⟩ :=
      ih (fun m' hm' => h m' (List.mem_cons_of_mem _ hm')) n' (below p (m.line owner))
    -- the tokens of the first member are on its line, so the next one is not crowded
    have hclear := hm.clear howner
    obtain ⟨hstart, hend⟩ := hread.line fun t ht => line_of_mem_tokens (hclear []) (p := p) ht
    refine ⟨read :: reads, n'', .cons hread hreads, .cons hlowers hrest, ?_, ?_⟩
    · refine crowded_cons_eq_nil hcrowded fun second hsecond => ?_
      rw [hfirst second hsecond, hend, line_below hclear]
      omega
    · rintro _ ⟨⟩
      exact hstart

/-! ## Classes -/

/-- A printed include line is read as the path it was printed for. -/
theorem isOverride_overrideLines {override : Option String}
    (h : ∀ path ∈ override, IsHeaderPath path) (p : Position) :
    ∃ o : Option IncludeOverride, IsOverride (allTokens p (overrideLines override)) o ∧
      o.map (·.path) = override := by
  cases override with
  | none => exact ⟨none, .absent, rfl⟩
  | some path =>
    refine ⟨_, .present rfl, ?_⟩
    rw [Option.map_some, pathOf_header (h path rfl)]

/-- What relates printed classes and the trees of their declarations. -/
abbrev Class.Printed := Class.Lowers TypeRef.Printed default

/-- A printed class is derived under the default settings, which ask for a member a line. -/
theorem Class.Canonical.isItem {scope : List String} {inherited : Option String} {c : Class}
    (h : c.Canonical scope inherited) (n : NodeId) (p : Position) :
    ∃ item n', IsItem default n (allTokens p c.lines) item n' ∧
      Module.Lowers Class.Printed scope inherited [item] ⟨[], [c]⟩ := by
  cases h with
  | @forward decl hspelled =>
    rw [Class.lines_ofForward, allTokens_cons, tokens_fixed, tokens_space, tokens_name,
      tokens_fixed]
    exact ⟨_, _, .forward (.mk rfl rfl hspelled.2 rfl), .forward .nil⟩
  | @definition name override members hname hinitial hoverride hmembers hmethods hconstructors =>
    obtain ⟨o, ho, hpath⟩ := isOverride_overrideLines hoverride p
    rw [Class.lines_of_definition rfl, allTokens_append, allTokens_append, allTokens_cons,
      tokens_fixed, tokens_space, tokens_name, tokens_space, tokens_fixed, ← List.append_assoc]
    obtain ⟨reads, n', hreads, hlowers, hcrowded, -⟩ := Member.isMembers hmembers hname n _
    refine ⟨_, _, .definition (.mk ho rfl rfl hinitial rfl hreads rfl rfl fun _ _ => hcrowded), ?_⟩
    refine .definition ⟨rfl, rfl, hpath.symm, ?_, rfl, hlowers, ?_, hconstructors⟩ .nil
    · rw [← hpath]
    · rw [← Member.Lowers.filterMap_methodKey? hlowers]
      exact hmethods

/-! ## Lists of items -/

theorem Grammar.IsItems.append {settings : GrammarSettings} {ts us : List Token}
    {items more : List Item} {n' n'' : NodeId} (h : IsItems settings n ts items n')
    (h' : IsItems settings n' us more n'') :
    IsItems settings n (ts ++ us) (items ++ more) n'' := by
  induction items generalizing n ts with
  | nil =>
    cases h
    exact h'
  | cons item items ih =>
    cases h with
    | cons hitem hitems =>
      rw [List.append_assoc]
      exact .cons hitem (ih hitems)

theorem Module.classes_beside (namespaces : List Namespace) (classes : List Class) :
    beside ⟨[], classes⟩ ⟨namespaces, []⟩ = ⟨namespaces, classes⟩ := by
  rw [beside, List.append_nil, List.nil_append]

/-- The classes of one level, in order. -/
theorem Class.isItems {scope : List String} {inherited : Option String} {cs : List Class}
    (h : ∀ c ∈ cs, c.Canonical scope inherited) (n : NodeId) (p : Position) :
    ∃ items n', IsItems default n (allTokens p (cs.flatMap Class.lines)) items n' ∧
      Module.Lowers Class.Printed scope inherited items ⟨[], cs⟩ := by
  induction cs generalizing n p with
  | nil => exact ⟨[], n, .nil, .nil⟩
  | cons c cs ih =>
    obtain ⟨item, n', hitem, hc⟩ := (h c List.mem_cons_self).isItem n p
    obtain ⟨items, n'', hitems, hcs⟩ :=
      ih (fun c' hc' => h c' (List.mem_cons_of_mem _ hc')) n' (allBelow p c.lines)
    rw [List.flatMap_cons, allTokens_append]
    exact ⟨_, _, .cons hitem hitems, hc.append hcs⟩

theorem isNamespaceName_spacedPieces {name : Option String}
    (h : ∀ s ∈ name, isIdentifier s = true ∧ startsLower s = true) (p : Position) :
    IsNamespaceName (tokens p (spacedPieces name)) name := by
  cases name with
  | none => exact .absent
  | some s =>
    rw [spacedPieces, tokens_space, tokens_name]
    exact .present rfl (h s rfl).2

/-- The name behind an end marker is on the marker's line. -/
theorem isClosing_spacedPieces {name : Option String}
    (h : ∀ s ∈ name, isIdentifier s = true ∧ startsLower s = true) (p : Position) :
    ∃ closing, IsClosing (tokens p (.fixed .namespaceEnd :: spacedPieces name)) closing name := by
  have hline {t : Token} := line_of_mem_tokens ((clear_namespace h).2 []) (p := p) (t := t)
  rw [tokens_fixed] at hline ⊢
  cases name with
  | none => exact ⟨_, .marker rfl⟩
  | some s =>
    rw [spacedPieces, tokens_space, tokens_name] at hline ⊢
    refine ⟨_, .named rfl rfl ?_⟩
    exact hline (List.mem_cons_of_mem _ List.mem_cons_self)

/-- The tokens of a namespace, without regard to where they are. -/
theorem Namespace.allTokens_lines (p : Position) (name : Option String) (path : List String)
    (override : Option String) (namespaces : List Namespace) (classes : List Class) :
    ∃ q₁ q₂ q₃ q₄ keyword opening,
      allTokens p (lines ⟨name, path, override, namespaces, classes⟩) =
        allTokens p (overrideLines override) ++ keyword :: tokens q₁ (spacedPieces name) ++
          opening :: (allTokens q₂ (classes.flatMap Class.lines) ++
            allTokens q₃ (linesOfAll namespaces)) ++
          tokens q₄ (.fixed .namespaceEnd :: spacedPieces name) ∧
      keyword.kind = .namespaceKeyword ∧ opening.kind = .openBrace := by
  rw [lines, allTokens_append, allTokens_append, allTokens_append, allTokens_cons, tokens_append,
    tokens_fixed, tokens_space, tokens_fixed]
  simp only [List.append_assoc, List.cons_append, allTokens_cons, allTokens_nil, List.append_nil]
  exact ⟨_, _, _, _, _, _, rfl, rfl, rfl⟩

/-- The namespaces of one level, by induction on the tree. -/
theorem Namespace.AllCanonical.isItems {scope : List String} {inherited : Option String}
    {spaces : List Namespace} (h : AllCanonical scope inherited spaces) (n : NodeId)
    (p : Position) : ∃ items n', IsItems default n (allTokens p (linesOfAll spaces)) items n' ∧
      Module.Lowers Class.Printed scope inherited items ⟨spaces, []⟩ := by
  induction h generalizing n p with
  | nil => exact ⟨[], n, .nil, .nil⟩
  | @cons scope inherited name override namespaces classes rest hname hoverride _ hclasses _ ih
      ihrest =>
    obtain ⟨o, ho, rfl⟩ := isOverride_overrideLines hoverride p
    obtain ⟨q₁, q₂, q₃, q₄, keyword, opening, htokens, hkeyword, hopening⟩ :=
      allTokens_lines p name (scope ++ name.toList) (o.map (·.path)) namespaces classes
    -- classes are printed before namespaces, so their ids come first
    obtain ⟨first, n₁, hfirst, hlowers⟩ := Class.isItems hclasses n q₂
    obtain ⟨second, n₂, hsecond, hlowers'⟩ := ih n₁ q₃
    obtain ⟨closing, hclosing⟩ := isClosing_spacedPieces hname q₄
    have hspace := IsItem.space ho hkeyword (isNamespaceName_spacedPieces hname q₁) hopening
      (hfirst.append hsecond) hclosing
    have hinside := hlowers.append hlowers'
    rw [Module.classes_beside] at hinside
    obtain ⟨items, n₃, hitems, hrest⟩ := ihrest (n₂ + 1) _
    rw [linesOfAll, allTokens_append, htokens]
    refine ⟨_, n₃, .cons hspace hitems, ?_⟩
    exact @Module.Lowers.space _ _ _ ⟨n₂, name, o, name, _⟩ _ _ _ _ hinside hrest

/-- A printed module is a file whose tree lowers to the module. -/
theorem Module.Canonical.derived {m : Module} (h : m.Canonical) :
    ∃ items, IsFile default (allTokens .origin m.lines) ⟨items⟩ ∧
      Module.Lowers Class.Printed [] none items m := by
  obtain ⟨first, n, hfirst, hlowers⟩ := Class.isItems h.classes 0 .origin
  obtain ⟨second, n', hsecond, hlowers'⟩ :=
    h.namespaces.isItems n (allBelow .origin (m.classes.flatMap Class.lines))
  have hm := hlowers.append hlowers'
  rw [Module.classes_beside] at hm
  rw [Module.lines, allTokens_append]
  exact ⟨_, ⟨n', hfirst.append hsecond⟩, hm⟩

end BindingIdl
