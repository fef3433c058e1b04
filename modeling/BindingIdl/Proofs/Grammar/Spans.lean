import BindingIdl.Proofs.Grammar.Completeness
import BindingIdl.Proofs.Symbol.Resolution
import BindingIdl.Proofs.Token.Places

/-!
# Places of derived trees

A construct is derived from the tokens it is written with, and its span runs from the first of them
to the last. So every span in a tree joins two tokens of the file, and the spans of members, and
those of classes and forward declarations, are in the order in which they are written.

Both are shown production by production, like the spelling of names. `ClassDecl.LaidOut` says it of
the parts of a class, and `InterfaceFile.LaidOut` of what a file declares.
-/

namespace BindingIdl

/-- The parts of the class are in places among some tokens, its members in order. -/
structure ClassDecl.LaidOut (ts : List Token) (decl : ClassDecl) : Prop where
  span : decl.span.Joins ts
  members : Span.Strung ts (decl.members.map MemberDecl.span)
  types : ∀ type ∈ decl.types, type.span.Joins ts

/-- Places among some tokens are places among more of them. -/
theorem ClassDecl.LaidOut.mono {ts us : List Token} {decl : ClassDecl} (h : decl.LaidOut ts)
    (hsub : ts ⊆ us) : decl.LaidOut us where
  span := h.span.mono hsub
  members := h.members.mono hsub
  types type htype := (h.types type htype).mono hsub

namespace Declaration

/-- Classes and forward declarations that are one behind the other, with the parts of the classes in
places. -/
structure AllLaidOut (ts : List Token) (ds : List (Scoped Declaration)) : Prop where
  strung : Span.Strung ts (ds.map (·.decl.span))
  definitions : ∀ d ∈ definitions ds, d.decl.LaidOut ts

namespace AllLaidOut

variable {ts us : List Token} {ds es : List (Scoped Declaration)}

theorem nil : AllLaidOut ts [] := ⟨.nil, by simp [Declaration.definitions]⟩

/-- A class alone is in place if its parts are. -/
theorem definition {scope : List String} {decl : ClassDecl} (h : decl.LaidOut ts) :
    AllLaidOut ts [⟨scope, .definition decl⟩] :=
  ⟨.single h.span, by simpa [Declaration.definitions] using h⟩

theorem forward {scope : List String} {decl : ForwardDecl} (h : decl.span.Joins ts) :
    AllLaidOut ts [⟨scope, .forward decl⟩] :=
  ⟨.single h, by simp [Declaration.definitions]⟩

theorem mono (h : AllLaidOut ts ds) (hsub : ts ⊆ us) : AllLaidOut us ds :=
  ⟨h.strung.mono hsub, fun d hd => (h.definitions d hd).mono hsub⟩

/-- Declarations of two parts of a file, one behind the other. -/
theorem append (h : AllLaidOut ts ds) (h' : AllLaidOut us es) (hts : Token.Ordered (ts ++ us)) :
    AllLaidOut (ts ++ us) (ds ++ es) where
  strung := by
    rw [List.map_append]
    exact h.strung.append h'.strung hts
  definitions d hd := by
    rw [Declaration.definitions, List.filterMap_append] at hd
    obtain hd | hd := List.mem_append.mp hd
    · exact (h.definitions d hd).mono (List.subset_append_left ts us)
    · exact (h'.definitions d hd).mono (List.subset_append_right ts us)

end AllLaidOut

end Declaration

/-- What a file declares is in places among some tokens. -/
abbrev InterfaceFile.LaidOut (ts : List Token) (file : InterfaceFile) : Prop :=
  Declaration.AllLaidOut ts file.declarations

namespace Grammar

variable {settings : GrammarSettings} {n n' : NodeId} {ts : List Token}

/-- A span is the cover of the first and the last token. -/
theorem spanOf_joins (h : ts ≠ []) : (spanOf ts).Joins ts :=
  ⟨ts.head h, List.head_mem h, ts.getLast h, List.getLast_mem h,
    spanOf_eq_cover (List.head?_eq_some_head h) (List.getLast?_eq_some_getLast h)⟩

/-- What stands between an opening token and what closes it. -/
theorem sublist_between (before inner behind : List Token) (opening : Token) :
    inner.Sublist (before ++ opening :: inner ++ behind) :=
  ((List.sublist_cons_self _ _).trans (List.sublist_append_right _ _)).trans
    (List.sublist_append_left _ _)

/-! ## Members -/

/-- A type covers all of its tokens. -/
theorem IsType.joins {type : TypeExpr} (h : IsType n ts type n') : type.span.Joins ts := by
  obtain ⟨t, us, hts, -⟩ := h.first
  cases h with
  | mk => exact spanOf_joins (by rw [hts]; exact List.cons_ne_nil t us)

theorem IsParameter.joins {param : ParameterDecl} (h : IsParameter n ts param n') :
    param.type.span.Joins ts := by
  cases h with
  | mk htype => exact htype.joins.mono (List.subset_append_left _ _)

/-- The types of parameters are one behind the other. -/
theorem IsParameterList.strung {params : List ParameterDecl} (h : IsParameterList n ts params n')
    (hts : Token.Ordered ts) : Span.Strung ts (params.map (·.type.span)) := by
  induction h with
  | last hparam => exact .single hparam.joins
  | trailing hparam => exact .single (hparam.joins.mono (List.subset_append_left _ _))
  | more hparam _ _ ih =>
    have hrest := ih (List.pairwise_cons.mp (List.pairwise_append.mp hts).2.1).2
    exact (Span.Strung.single hparam.joins).append (hrest.mono (List.subset_cons_self _ _)) hts

theorem IsParameters.strung {params : List ParameterDecl} (h : IsParameters n ts params n')
    (hts : Token.Ordered ts) : Span.Strung ts (params.map (·.type.span)) := by
  cases h with
  | none => exact .nil
  | @some _ us opening closing _ _ hlist =>
    have hsub : us.Sublist (opening :: us ++ [closing]) := sublist_between [] us [closing] opening
    exact (hlist.strung (hts.sublist hsub)).mono hsub.subset

/-- A member goes from its first token to its `;`. -/
theorem IsMember.joins {owner : String} {read : ReadMember} (h : IsMember owner n ts read n') :
    read.decl.span.Joins ts := by
  cases h <;> exact spanOf_joins (by simp)

/-- The types of a member are one behind the other, what it returns first. -/
theorem IsMember.strung_types {owner : String} {read : ReadMember}
    (h : IsMember owner n ts read n') (hts : Token.Ordered ts) :
    Span.Strung ts (read.decl.types.map (·.span)) := by
  have hmethod {n m k : NodeId} {us ps : List Token} {returns : TypeExpr}
      {params : List ParameterDecl} (hreturns : IsType n us returns m)
      (hparams : IsParameters m ps params k) (hsub : (us ++ ps).Sublist ts) :
      Span.Strung ts ((returns :: params.map (·.type)).map (·.span)) := by
    have hordered : Token.Ordered (us ++ ps) := hts.sublist hsub
    rw [List.map_cons, List.map_map]
    exact ((Span.Strung.single hreturns.joins).append
      (hparams.strung (List.pairwise_append.mp hordered).2.1) hordered).mono hsub.subset
  cases h with
  | @constructor _ ps name semi _ _ _ hparams =>
    have hsub : ps.Sublist (name :: ps ++ [semi]) := sublist_between [] ps [semi] name
    rw [MemberDecl.types, List.map_map]
    exact (hparams.strung (hts.sublist hsub)).mono hsub.subset
  | method hreturns _ _ hparams =>
    exact hmethod hreturns hparams (by simp)
  | staticMethod _ hreturns _ _ hparams =>
    refine hmethod hreturns hparams ?_
    simpa using List.Sublist.cons _ (by simp)

theorem IsMembers.strung_types {owner : String} {members : List ReadMember}
    (h : IsMembers owner n ts members n') (hts : Token.Ordered ts) :
    Span.Strung ts (((members.map (·.decl)).flatMap MemberDecl.types).map (·.span)) := by
  induction h with
  | nil => exact .nil
  | cons hmember _ ih =>
    obtain ⟨hfirst, hrest, -⟩ := List.pairwise_append.mp hts
    rw [List.map_cons, List.flatMap_cons, List.map_append]
    exact (hmember.strung_types hfirst).append (ih hrest) hts

/-- The members of a class come one behind the other. -/
theorem IsMembers.strung {owner : String} {members : List ReadMember}
    (h : IsMembers owner n ts members n') (hts : Token.Ordered ts) :
    Span.Strung ts (members.map (·.decl.span)) := by
  induction h with
  | nil => exact .nil
  | cons hmember _ ih =>
    exact (Span.Strung.single hmember.joins).append (ih (List.pairwise_append.mp hts).2.1) hts

/-! ## What constructs are written with -/

/-- The tokens of a class are those of its override, those that its span covers, and a semicolon. -/
theorem IsClass.split {decl : ClassDecl} (h : IsClass settings n ts decl n') :
    ∃ before keyword name opening inner closing semi members n'',
      ts = before ++ ((keyword :: name :: opening :: inner ++ [closing]) ++ [semi]) ∧
      IsOverride before decl.override ∧ IsMembers decl.name n inner members n'' ∧
      decl.members = members.map (·.decl) ∧
      decl.span = keyword.span.cover closing.span := by
  cases h with
  | @mk n'' before inner keyword name opening closing semi _ members hoverride _ _ _ _ hmembers =>
    have hspan : spanOf ([keyword, name, opening] ++ inner ++ [closing]) =
        keyword.span.cover closing.span :=
      spanOf_eq_cover rfl List.getLast?_concat
    exact ⟨before, keyword, name, opening, inner, closing, semi, members, n'', by simp, hoverride,
      hmembers, rfl, hspan⟩

/-- Where the members of a class are. -/
theorem IsClass.exists_members {decl : ClassDecl} (h : IsClass settings n ts decl n') :
    ∃ inner members n'', inner <:+: ts ∧ IsMembers decl.name n inner members n'' ∧
      decl.members = members.map (·.decl) := by
  obtain ⟨before, keyword, name, opening, inner, closing, semi, members, n'', rfl, -, hmembers,
    hdecls, -⟩ := h.split
  exact ⟨inner, members, n'', ⟨before ++ [keyword, name, opening], [closing, semi], by simp⟩,
    hmembers, hdecls⟩

theorem IsClosing.first {closing : Token} {closeName : Option String}
    (h : IsClosing ts closing closeName) : ∃ behind, ts = closing :: behind := by
  cases h <;> exact ⟨_, rfl⟩

/-- The tokens of a namespace are those of its override, those that its span covers, and perhaps the
name behind the end marker. -/
theorem IsItem.split {head : NamespaceHead} {items : List Item}
    (h : IsItem settings n ts (.space head items) n') :
    ∃ before keyword names opening inner closing behind n'',
      ts = before ++ ((keyword :: names ++ opening :: inner ++ [closing]) ++ behind) ∧
      IsOverride before head.override ∧ IsItems settings n inner items n'' ∧
      head.span = keyword.span.cover closing.span := by
  cases h with
  | @space _ n'' before names inner _ keyword opening closing _ _ _ _ hoverride _ _ _ hinside
      hclosing =>
    obtain ⟨behind, rfl⟩ := hclosing.first
    exact ⟨before, keyword, names, opening, inner, closing, behind, n'', by simp, hoverride,
      hinside, rfl⟩

/-- Where the items of a namespace are. -/
theorem IsItem.exists_items {head : NamespaceHead} {items : List Item}
    (h : IsItem settings n ts (.space head items) n') :
    ∃ inner n'', inner <:+: ts ∧ IsItems settings n inner items n'' := by
  obtain ⟨before, keyword, names, opening, inner, closing, behind, n'', rfl, -, hinside, -⟩ :=
    h.split
  exact ⟨inner, n'', ⟨before ++ keyword :: names ++ [opening], closing :: behind, by simp⟩, hinside⟩

/-! ## Items -/

theorem IsClass.strung_types {decl : ClassDecl} (h : IsClass settings n ts decl n')
    (hts : Token.Ordered ts) : Span.Strung ts (decl.types.map (·.span)) := by
  obtain ⟨inner, members, _, hsub, hmembers, hdecls⟩ := h.exists_members
  rw [ClassDecl.types, hdecls]
  exact (hmembers.strung_types (hts.sublist hsub.sublist)).mono hsub.subset

theorem IsClass.joins {decl : ClassDecl} (h : IsClass settings n ts decl n') :
    decl.span.Joins ts := by
  obtain ⟨before, keyword, name, opening, inner, closing, semi, members, n'', rfl, -, -, -,
    hspan⟩ := h.split
  exact ⟨keyword, by simp, closing, by simp, hspan⟩

/-- The parts of a derived class are in place among its tokens. -/
theorem IsClass.laidOut {decl : ClassDecl} (h : IsClass settings n ts decl n')
    (hts : Token.Ordered ts) : decl.LaidOut ts := by
  obtain ⟨inner, members, _, hsub, hmembers, hdecls⟩ := h.exists_members
  refine ⟨h.joins, ?_, fun type htype => (h.strung_types hts).joins _ (List.mem_map_of_mem htype)⟩
  rw [hdecls, List.map_map]
  exact (hmembers.strung (hts.sublist hsub.sublist)).mono hsub.subset

theorem IsForward.joins {decl : ForwardDecl} (h : IsForward n ts decl n') :
    decl.span.Joins ts := by
  cases h with
  | mk => exact spanOf_joins (by simp)

/-- The classes and forward declarations among items are in the order of their tokens. -/
theorem IsItems.laidOut {items : List Item} (h : IsItems settings n ts items n')
    (hts : Token.Ordered ts) (scope : List String) :
    Declaration.AllLaidOut ts (Item.allDeclarations scope items) := by
  induction items using Item.induction generalizing n ts n' scope with
  | nil => exact .nil
  | space head items rest ih ihrest =>
    cases h with
    | cons hitem hitems =>
      obtain ⟨hfirst, hlast, -⟩ := List.pairwise_append.mp hts
      obtain ⟨inner, _, hsub, hinner⟩ := hitem.exists_items
      exact ((ih hinner (hfirst.sublist hsub.sublist) _).mono hsub.subset).append
        (ihrest hitems hlast scope) hts
  | definition decl rest ih =>
    cases h with
    | cons hitem hitems =>
      obtain ⟨hfirst, hlast, -⟩ := List.pairwise_append.mp hts
      cases hitem with
      | definition hclass =>
        exact (Declaration.AllLaidOut.definition (hclass.laidOut hfirst)).append
          (ih hitems hlast scope) hts
  | forward decl rest ih =>
    cases h with
    | cons hitem hitems =>
      obtain ⟨-, hlast, -⟩ := List.pairwise_append.mp hts
      cases hitem with
      | forward hforward =>
        exact (Declaration.AllLaidOut.forward hforward.joins).append (ih hitems hlast scope) hts

/-- The types in the signatures of all classes are in the order of their tokens. -/
theorem IsItems.strung_types {items : List Item} (h : IsItems settings n ts items n')
    (hts : Token.Ordered ts) (scope : List String) :
    Span.Strung ts (((Declaration.definitions (Item.allDeclarations scope items)).flatMap
      (·.decl.types)).map (·.span)) := by
  induction items using Item.induction generalizing n ts n' scope with
  | nil => exact .nil
  | space head items rest ih ihrest =>
    cases h with
    | cons hitem hitems =>
      obtain ⟨hfirst, hlast, -⟩ := List.pairwise_append.mp hts
      obtain ⟨inner, _, hsub, hinner⟩ := hitem.exists_items
      rw [Item.allDeclarations, Item.declarations, Declaration.definitions, List.filterMap_append,
        List.flatMap_append, List.map_append]
      exact ((ih hinner (hfirst.sublist hsub.sublist) _).mono hsub.subset).append
        (ihrest hitems hlast scope) hts
  | definition decl rest ih =>
    cases h with
    | cons hitem hitems =>
      obtain ⟨hfirst, hlast, -⟩ := List.pairwise_append.mp hts
      cases hitem with
      | definition hclass =>
        have hboth := (hclass.strung_types hfirst).append (ih hitems hlast scope) hts
        rw [← List.map_append] at hboth
        exact hboth
  | forward decl rest ih =>
    cases h with
    | cons hitem hitems =>
      exact (ih hitems (List.pairwise_append.mp hts).2.1 scope).mono
        (List.subset_append_right _ _)

/-! ## Files -/

/-- What a derived file declares is in place among its tokens. -/
theorem IsFile.laidOut {file : InterfaceFile} (h : IsFile settings ts file)
    (hts : Token.Ordered ts) : file.LaidOut ts := by
  obtain ⟨n, hitems⟩ := h
  exact hitems.laidOut hts []

/-- The types of a derived file are one behind the other, whatever they are used for. -/
theorem IsFile.strung_types {file : InterfaceFile} (h : IsFile settings ts file)
    (hts : Token.Ordered ts) : Span.Strung ts (file.types.map (·.span)) := by
  obtain ⟨n, hitems⟩ := h
  exact hitems.strung_types hts []

end Grammar

end BindingIdl
