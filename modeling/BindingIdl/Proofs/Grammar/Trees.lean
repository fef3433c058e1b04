import BindingIdl.Compilation
import BindingIdl.Proofs.Grammar.Soundness
import BindingIdl.Proofs.Symbol.Resolution
import BindingIdl.Proofs.Token.Words

/-!
# Derived trees

Two things hold of every tree that the grammar derives. Its names are spelled as the rules ask
(`Item.AllSpelled`), as long as its tokens come from a scanned text, and the types in its signatures
have ascending ids, so that no two of them share one.

Both are shown production by production. Together, in `InterfaceFile.spelled_of_ofText`, they are
what resolution asks of a file.
-/

namespace BindingIdl

/-! ## Spelling -/

/-- A parameter has an identifier for a name, and a type named by identifiers. -/
def ParameterDecl.Spelled (p : ParameterDecl) : Prop :=
  isIdentifier p.name = true ∧ p.type.name.Wellformed

/-- A static method may begin with any letter, another one begins with a lowercase letter. No static
method is constant. -/
structure MethodDecl.Spelled (m : MethodDecl) : Prop where
  name : isIdentifier m.name = true
  initial : (if m.isStatic then startsWithLetter m.name else startsLower m.name) = true
  returns : m.returns.name.Wellformed
  constness : m.isStatic = true → m.isConst = false

/-- The parameters of any member, and the method if it is one: a constructor has no name of its
own. -/
structure MemberDecl.Spelled (m : MemberDecl) : Prop where
  params : ∀ p ∈ m.params, p.Spelled
  method : ∀ d ∈ m.method?, d.Spelled

/-- A class begins with an uppercase letter. The path of an include line is text of its own and no
identifier. -/
structure ClassDecl.Spelled (d : ClassDecl) : Prop where
  name : isIdentifier d.name = true
  initial : startsUpper d.name = true
  override : ∀ o ∈ d.override, IsHeaderPath o.path
  members : ∀ m ∈ d.members, m.Spelled

/-- The name follows the rule for classes. -/
def ForwardDecl.Spelled (d : ForwardDecl) : Prop :=
  isIdentifier d.name = true ∧ startsUpper d.name = true

/-- A namespace begins with a lowercase letter; one without a name has nothing to spell. -/
structure NamespaceHead.Spelled (head : NamespaceHead) : Prop where
  name : ∀ n ∈ head.name, isIdentifier n = true ∧ startsLower n = true
  override : ∀ o ∈ head.override, IsHeaderPath o.path

mutual

/-- The names in an item follow the naming rules. -/
def Item.Spelled : Item → Prop
  | .space head items => head.Spelled ∧ Item.AllSpelled items
  | .definition decl => decl.Spelled
  | .forward decl => decl.Spelled

/-- The names in a list of items follow the naming rules. -/
def Item.AllSpelled : List Item → Prop
  | [] => True
  | item :: rest => item.Spelled ∧ Item.AllSpelled rest

end

/-! ## Namespaces -/

mutual

/-- The namespaces of an item, each in front of those inside it. -/
def Item.heads : Item → List NamespaceHead
  | .space head items => head :: Item.allHeads items
  | .definition _ | .forward _ => []

/-- The namespaces of a list of items in reading order. -/
def Item.allHeads : List Item → List NamespaceHead
  | [] => []
  | item :: rest => item.heads ++ Item.allHeads rest

end

/-- Every namespace that a file opens, in reading order. -/
def InterfaceFile.heads (file : InterfaceFile) : List NamespaceHead := Item.allHeads file.items

/-! ## Signatures and paths -/

theorem MemberDecl.Spelled.types {m : MemberDecl} (h : m.Spelled) :
    ∀ type ∈ m.types, type.name.Wellformed := by
  have params : ∀ type ∈ m.params.map (·.type), type.name.Wellformed := by
    intro type htype
    obtain ⟨p, hp, rfl⟩ := List.mem_map.mp htype
    exact (h.params p hp).2
  cases m with
  | constructor d => exact params
  | method d =>
    intro type htype
    obtain rfl | htype := List.mem_cons.mp htype
    · exact (h.method d rfl).returns
    · exact params type htype

theorem ClassDecl.Spelled.types {d : ClassDecl} (h : d.Spelled) :
    ∀ type ∈ d.types, type.name.Wellformed := by
  intro type htype
  obtain ⟨m, hm, htype⟩ := List.mem_flatMap.mp htype
  exact (h.members m hm).types type htype

/-- Inside a scope of identifiers, spelled items declare paths of identifiers. -/
theorem Item.AllSpelled.paths {items : List Item} (h : Item.AllSpelled items)
    {scope : List String} (hscope : ∀ s ∈ scope, isIdentifier s = true) :
    ∀ d ∈ Item.allDeclarations scope items, d.path.Wellformed := by
  induction items using Item.induction generalizing scope with
  | nil => exact fun d hd => absurd hd List.not_mem_nil
  | space head items rest ih ihrest =>
    obtain ⟨⟨hhead, hitems⟩, hrest⟩ := h
    intro d hd
    obtain hd | hd := List.mem_append.mp hd
    · refine ih hitems (fun s hs => ?_) d hd
      obtain hs | hs := List.mem_append.mp hs
      · exact hscope s hs
      · exact (hhead.name s (Option.mem_toList.mp hs)).1
    · exact ihrest hrest hscope d hd
  | definition decl rest ih =>
    intro d hd
    obtain rfl | hd := List.mem_cons.mp hd
    · exact QualifiedName.wellformed_mk_iff.mpr ⟨hscope, h.1.name⟩
    · exact ih h.2 hscope d hd
  | forward decl rest ih =>
    intro d hd
    obtain rfl | hd := List.mem_cons.mp hd
    · exact QualifiedName.wellformed_mk_iff.mpr ⟨hscope, h.1.1⟩
    · exact ih h.2 hscope d hd

/-- Spelling goes down to every class, however deep its namespace is. -/
theorem Item.AllSpelled.classes {items : List Item} (h : Item.AllSpelled items)
    {scope : List String} {d : Scoped Declaration} (hd : d ∈ Item.allDeclarations scope items)
    {decl : ClassDecl} (hdecl : d.decl = .definition decl) : decl.Spelled := by
  induction items using Item.induction generalizing scope with
  | nil => exact absurd hd List.not_mem_nil
  | space head items rest ih ihrest =>
    obtain hd | hd := List.mem_append.mp hd
    · exact ih h.1.2 hd
    · exact ihrest h.2 hd
  | definition decl rest ih =>
    obtain rfl | hd := List.mem_cons.mp hd
    · cases hdecl
      exact h.1
    · exact ih h.2 hd
  | forward decl rest ih =>
    obtain rfl | hd := List.mem_cons.mp hd
    · cases hdecl
    · exact ih h.2 hd

/-- What resolution asks of the names in a file is part of the naming rules. -/
theorem InterfaceFile.wellnamed_of_allSpelled {file : InterfaceFile}
    (h : Item.AllSpelled file.items) : file.Wellnamed where
  declared := h.paths fun s hs => absurd hs List.not_mem_nil
  used type htype := by
    obtain ⟨d, hd, htype⟩ := List.mem_flatMap.mp htype
    exact (h.classes (InterfaceFile.mem_definitions_iff.mp hd) rfl).types type htype

/-! ## Ascending ids -/

/-- Ids from `n` on, each larger than the one before and all below `n'`. -/
structure Ascending (n : Nat) (ids : List Nat) (n' : Nat) : Prop where
  le : n ≤ n'
  within : ∀ i ∈ ids, n ≤ i ∧ i < n'
  ascending : ids.Pairwise (· < ·)

namespace Ascending

variable {n m n' : Nat} {ids is : List Nat}

theorem nil (h : n ≤ n') : Ascending n [] n' := ⟨h, by simp, .nil⟩

theorem single (n : Nat) : Ascending n [n] (n + 1) := ⟨by omega, by simp, by simp⟩

/-- Two stretches of ascending ids join where the first one stops. -/
theorem append (h : Ascending n ids m) (h' : Ascending m is n') : Ascending n (ids ++ is) n' where
  le := Nat.le_trans h.le h'.le
  within i hi := by
    have hle := h.le
    have hle' := h'.le
    obtain hi | hi := List.mem_append.mp hi
    · have := h.within i hi
      omega
    · have := h'.within i hi
      omega
  ascending := by
    refine List.pairwise_append.mpr ⟨h.ascending, h'.ascending, fun i hi j hj => ?_⟩
    exact Nat.lt_of_lt_of_le (h.within i hi).2 (h'.within j hj).1

theorem extend (h : Ascending n ids m) (hle : m ≤ n') : Ascending n ids n' := by
  simpa using h.append (nil hle)

theorem nodup (h : Ascending n ids n') : ids.Nodup := h.ascending.imp Nat.ne_of_lt

end Ascending

/-- The ids of some types. -/
abbrev TypeExpr.ids (types : List TypeExpr) : List NodeId := types.map (·.id)

/-- The types in the signatures of some items. -/
def Item.typesOf (scope : List String) (items : List Item) : List TypeExpr :=
  (Declaration.definitions (Item.allDeclarations scope items)).flatMap (·.decl.types)

/-- The types inside a block are listed under the scope that it opens, then those behind it. -/
theorem Item.typesOf_space (scope : List String) (head : NamespaceHead) (items rest : List Item) :
    Item.typesOf scope (.space head items :: rest) =
      Item.typesOf (scope ++ head.name.toList) items ++ Item.typesOf scope rest := by
  simp [typesOf, Item.allDeclarations, Item.declarations, Declaration.definitions]

namespace Grammar

variable {n n' : NodeId} {ts : List Token}

/-! ## Names and types -/

/-- Each segment of a qualified name is a token of the text, so it is an identifier. -/
theorem IsName.wellformed {name : QualifiedName} (h : IsName ts name) (hts : ∀ t ∈ ts, t.Scanned) :
    name.Wellformed := by
  induction h with
  | bare ht =>
    exact QualifiedName.wellformed_mk_iff.mpr
      ⟨by simp, (hts _ List.mem_cons_self).isIdentifier ht⟩
  | qualified ht hcolons _ ih =>
    have hq := QualifiedName.wellformed_mk_iff.mp
      (ih fun t ht => hts t (List.mem_cons_of_mem _ (List.mem_cons_of_mem _ ht)))
    refine QualifiedName.wellformed_mk_iff.mpr ⟨?_, hq.2⟩
    intro s hs
    obtain rfl | hs := List.mem_cons.mp hs
    · exact (hts _ List.mem_cons_self).isIdentifier ht
    · exact hq.1 s hs

theorem IsType.wellformed {type : TypeExpr} (h : IsType n ts type n')
    (hts : ∀ t ∈ ts, t.Scanned) : type.name.Wellformed := by
  cases h with
  | mk hconst hhead hmark =>
    cases hhead with
    | plain hname => exact hname.wellformed fun t ht => hts t (by simp [ht])
    | shared _ _ _ hname => exact hname.wellformed fun t ht => hts t (by simp [ht])

/-- A type has one id, the first that was free. -/
theorem IsType.ascending {type : TypeExpr} (h : IsType n ts type n') :
    Ascending n (TypeExpr.ids [type]) n' := by
  cases h
  exact .single n

/-! ## Members -/

theorem IsParameter.spelled {param : ParameterDecl} (h : IsParameter n ts param n')
    (hts : ∀ t ∈ ts, t.Scanned) : param.Spelled := by
  cases h with
  | mk htype hname =>
    exact ⟨(hts _ List.mem_concat_self).isIdentifier hname,
      htype.wellformed fun t ht => hts t (List.mem_append_left _ ht)⟩

theorem IsParameter.ascending {param : ParameterDecl} (h : IsParameter n ts param n') :
    Ascending n (TypeExpr.ids [param.type]) n' := by
  cases h with
  | mk htype => exact htype.ascending.extend (Nat.le_succ _)

theorem IsParameterList.spelled {params : List ParameterDecl} (h : IsParameterList n ts params n')
    (hts : ∀ t ∈ ts, t.Scanned) : ∀ p ∈ params, p.Spelled := by
  induction h with
  | last hparam =>
    intro p hp
    obtain rfl := List.mem_singleton.mp hp
    exact hparam.spelled hts
  | trailing hparam =>
    intro p hp
    obtain rfl := List.mem_singleton.mp hp
    exact hparam.spelled fun t ht => hts t (List.mem_append_left _ ht)
  | more hparam _ _ ih =>
    intro p hp
    obtain rfl | hp := List.mem_cons.mp hp
    · exact hparam.spelled fun t ht => hts t (List.mem_append_left _ ht)
    · exact ih (fun t ht => hts t (by simp [ht])) p hp

theorem IsParameterList.ascending {params : List ParameterDecl}
    (h : IsParameterList n ts params n') : Ascending n (TypeExpr.ids (params.map (·.type))) n' := by
  induction h with
  | last hparam => exact hparam.ascending
  | trailing hparam => exact hparam.ascending
  | more hparam _ _ ih => exact hparam.ascending.append ih

theorem IsParameters.spelled {params : List ParameterDecl} (h : IsParameters n ts params n')
    (hts : ∀ t ∈ ts, t.Scanned) : ∀ p ∈ params, p.Spelled := by
  cases h with
  | none => exact fun p hp => absurd hp List.not_mem_nil
  | some _ hlist => exact hlist.spelled fun t ht => hts t (by simp [ht])

theorem IsParameters.ascending {params : List ParameterDecl} (h : IsParameters n ts params n') :
    Ascending n (TypeExpr.ids (params.map (·.type))) n' := by
  cases h with
  | none => exact .nil (Nat.le_refl _)
  | some _ hlist => exact hlist.ascending

/-- The rules of the grammar for the names of methods are those of `MethodDecl.Spelled`. -/
theorem IsMember.spelled {owner : String} {read : ReadMember} (h : IsMember owner n ts read n')
    (hts : ∀ t ∈ ts, t.Scanned) : read.decl.Spelled := by
  cases h with
  | constructor _ _ hparams =>
    exact ⟨hparams.spelled fun t ht => hts t (by simp [ht]), by simp [MemberDecl.method?]⟩
  | method htype hname hlower hparams =>
    refine ⟨hparams.spelled fun t ht => hts t (by simp [ht]), ?_⟩
    rintro _ ⟨⟩
    exact ⟨(hts _ (by simp)).isIdentifier hname, hlower,
      htype.wellformed fun t ht => hts t (by simp [ht]), nofun⟩
  | staticMethod _ htype hname hletter hparams =>
    refine ⟨hparams.spelled fun t ht => hts t (by simp [ht]), ?_⟩
    rintro _ ⟨⟩
    exact ⟨(hts _ (by simp)).isIdentifier hname, hletter,
      htype.wellformed fun t ht => hts t (by simp [ht]), fun _ => rfl⟩

/-- The result of a method has an id in front of those of its parameters. -/
theorem IsMember.ascending {owner : String} {read : ReadMember} (h : IsMember owner n ts read n') :
    Ascending n (TypeExpr.ids read.decl.types) n' := by
  cases h with
  | constructor _ _ hparams => exact hparams.ascending.extend (Nat.le_succ _)
  | method htype _ _ hparams =>
    exact (htype.ascending.append hparams.ascending).extend (Nat.le_succ _)
  | staticMethod _ htype _ _ hparams =>
    exact (htype.ascending.append hparams.ascending).extend (Nat.le_succ _)

theorem IsMembers.spelled {owner : String} {members : List ReadMember}
    (h : IsMembers owner n ts members n') (hts : ∀ t ∈ ts, t.Scanned) :
    ∀ read ∈ members, read.decl.Spelled := by
  induction h with
  | nil => exact fun read hread => absurd hread List.not_mem_nil
  | cons hmember _ ih =>
    intro read hread
    obtain rfl | hread := List.mem_cons.mp hread
    · exact hmember.spelled fun t ht => hts t (List.mem_append_left _ ht)
    · exact ih (fun t ht => hts t (List.mem_append_right _ ht)) read hread

theorem IsMembers.ascending {owner : String} {members : List ReadMember}
    (h : IsMembers owner n ts members n') :
    Ascending n (TypeExpr.ids ((members.map (·.decl)).flatMap MemberDecl.types)) n' := by
  induction h with
  | nil => exact .nil (Nat.le_refl _)
  | cons hmember _ ih =>
    have := hmember.ascending.append ih
    simpa using this

/-! ## Items -/

/-- The word behind the marker is scanned as a header path. -/
theorem IsOverride.spelled {override : Option IncludeOverride} (h : IsOverride ts override)
    (hts : ∀ t ∈ ts, t.Scanned) : ∀ o ∈ override, IsHeaderPath o.path := by
  cases h with
  | absent => exact fun o ho => by cases ho
  | present ht =>
    rintro _ ⟨⟩
    exact (hts _ List.mem_cons_self).isHeaderPath ht

theorem IsClass.spelled {settings : GrammarSettings} {decl : ClassDecl}
    (h : IsClass settings n ts decl n') (hts : ∀ t ∈ ts, t.Scanned) : decl.Spelled := by
  cases h with
  | mk hoverride _ hname hupper _ hmembers =>
    refine ⟨(hts _ (by simp)).isIdentifier hname, hupper,
      hoverride.spelled fun t ht => hts t (by simp [ht]), fun m hm => ?_⟩
    obtain ⟨read, hread, rfl⟩ := List.mem_map.mp hm
    exact hmembers.spelled (fun t ht => hts t (by simp [ht])) read hread

theorem IsClass.ascending {settings : GrammarSettings} {decl : ClassDecl}
    (h : IsClass settings n ts decl n') : Ascending n (TypeExpr.ids decl.types) n' := by
  cases h with
  | mk _ _ _ _ _ hmembers => exact hmembers.ascending.extend (Nat.le_succ _)

theorem IsForward.spelled {decl : ForwardDecl} (h : IsForward n ts decl n')
    (hts : ∀ t ∈ ts, t.Scanned) : decl.Spelled := by
  cases h with
  | mk _ hname hupper => exact ⟨(hts _ (by simp)).isIdentifier hname, hupper⟩

theorem IsNamespaceName.spelled {name : Option String} (h : IsNamespaceName ts name)
    (hts : ∀ t ∈ ts, t.Scanned) :
    ∀ s ∈ name, isIdentifier s = true ∧ startsLower s = true := by
  cases h with
  | absent => exact fun s hs => by cases hs
  | present ht hlower =>
    rintro _ ⟨⟩
    exact ⟨(hts _ List.mem_cons_self).isIdentifier ht, hlower⟩

/-- By induction on the derivation, where a block gives the names inside it and those behind it. -/
theorem IsItems.allSpelled {settings : GrammarSettings} {items : List Item}
    (h : IsItems settings n ts items n') (hts : ∀ t ∈ ts, t.Scanned) : Item.AllSpelled items := by
  induction items using Item.induction generalizing n ts n' with
  | nil => trivial
  | space head items rest ih ihrest =>
    cases h with
    | cons hitem hitems =>
      cases hitem with
      | space hoverride _ hname _ hinner =>
        refine ⟨⟨⟨?_, ?_⟩, ih hinner fun t ht => hts t (by simp [ht])⟩,
          ihrest hitems fun t ht => hts t (by simp [ht])⟩
        · exact hname.spelled fun t ht => hts t (by simp [ht])
        · exact hoverride.spelled fun t ht => hts t (by simp [ht])
  | definition decl rest ih =>
    cases h with
    | cons hitem hitems =>
      cases hitem with
      | definition hclass =>
        exact ⟨hclass.spelled fun t ht => hts t (by simp [ht]),
          ih hitems fun t ht => hts t (by simp [ht])⟩
  | forward decl rest ih =>
    cases h with
    | cons hitem hitems =>
      cases hitem with
      | forward hforward =>
        exact ⟨hforward.spelled fun t ht => hts t (by simp [ht]),
          ih hitems fun t ht => hts t (by simp [ht])⟩

/-- The types of a list of items in reading order have ascending ids, in whatever scope they are
listed. -/
theorem IsItems.ascending {settings : GrammarSettings} {items : List Item}
    (h : IsItems settings n ts items n') (scope : List String) :
    Ascending n (TypeExpr.ids (Item.typesOf scope items)) n' := by
  induction items using Item.induction generalizing n ts n' scope with
  | nil =>
    cases h
    exact .nil (Nat.le_refl _)
  | space head items rest ih ihrest =>
    rw [Item.typesOf_space, TypeExpr.ids, List.map_append]
    cases h with
    | cons hitem hitems =>
      cases hitem with
      | space _ _ _ _ hinner =>
        exact ((ih hinner _).extend (Nat.le_succ _)).append (ihrest hitems scope)
  | definition decl rest ih =>
    cases h with
    | cons hitem hitems =>
      cases hitem with
      | definition hclass =>
        have := hclass.ascending.append (ih hitems scope)
        rwa [← List.map_append] at this
  | forward decl rest ih =>
    cases h with
    | cons hitem hitems =>
      cases hitem with
      | forward hforward =>
        cases hforward
        exact (Ascending.nil (Nat.le_succ _)).append (ih hitems scope)

/-! ## Files -/

theorem IsFile.allSpelled {settings : GrammarSettings} {file : InterfaceFile}
    (h : IsFile settings ts file) (hts : ∀ t ∈ ts, t.Scanned) : Item.AllSpelled file.items := by
  obtain ⟨n, hitems⟩ := h
  exact hitems.allSpelled hts

/-- No two types of a file share an id: resolution may keep its answers by id. -/
theorem IsFile.nodup_types {settings : GrammarSettings} {file : InterfaceFile}
    (h : IsFile settings ts file) : (TypeExpr.ids file.types).Nodup := by
  obtain ⟨n, hitems⟩ := h
  exact (hitems.ascending []).nodup

end Grammar

/-- What a text is read as is spelled as the rules ask, and no two of its types share an id. -/
theorem InterfaceFile.spelled_of_ofText {settings : GrammarSettings} {text : String}
    {file : InterfaceFile} (h : ofText settings text = .ok file) :
    Item.AllSpelled file.items ∧ (TypeExpr.ids file.types).Nodup := by
  unfold ofText tokensOf at h
  cases htokens : Token.ofText text with
  | error e => rw [htokens] at h; cases h
  | ok tokens =>
    rw [htokens] at h
    have hfile := Grammar.isFile_of_ofTokens h
    refine ⟨hfile.allSpelled fun t ht => ?_, hfile.nodup_types⟩
    have hend : t.kind ≠ .endOfFile := by
      simpa using List.all_eq_true.mp List.all_takeWhile t ht
    exact Token.scanned_of_ofText htokens (List.takeWhile_subset _ ht) hend

end BindingIdl
