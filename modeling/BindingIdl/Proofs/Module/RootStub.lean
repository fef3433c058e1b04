import BindingIdl.Proofs.Grammar.Joining
import BindingIdl.Proofs.Module.Placement
import BindingIdl.Proofs.Printing.Pieces

/-!
# One more root stub

Any accepted text may be followed by one more forward declaration. What it declares is at the root,
which is the last place where a bare name is looked for, and it is trusted for qualified names only
where nothing else explains them. So whatever a name denotes it goes on denoting
(`Denotes.forwarded`), and every class in the tree stays as it is.

The declaration itself is one of those that survive if its path is new, and is dropped if not: see
`Classified.settled_forwarded`. The result on texts is `Module.ofText_forwarded`.
-/

namespace BindingIdl

open Declaration

/-! ## Names -/

/-- A class declared at the root takes no name away from what it denotes. -/
theorem Denotes.forwarded {defined forward : List QualifiedName} {scope : List String}
    {name p : QualifiedName} (h : Denotes defined forward scope name p) (stub : String) :
    Denotes defined (forward ++ [.bare stub]) scope name p := by
  have hknown {q : QualifiedName} (hq : q ∈ defined ∨ q ∈ forward) :
      q ∈ defined ∨ q ∈ forward ++ [.bare stub] :=
    hq.imp_right (List.mem_append_left _)
  cases h with
  | absolute hqualified hq => exact .absolute hqualified (hknown hq)
  | rescued hqualified hroot hdefined =>
    exact .rescued hqualified (List.mem_append_left _ hroot) hdefined
  | @enclosing name spaces hspaces hq hlongest =>
    apply Denotes.enclosing hspaces (hknown hq)
    intro longer hlonger hlt hmem
    have hold := hlongest longer hlonger hlt
    rcases hmem with hmem | hmem
    · exact hold (.inl hmem)
    · rcases List.mem_append.mp hmem with hmem | hnew
      · exact hold (.inr hmem)
      · -- the root is no longer than any other stretch of the scope
        have hroot : longer = [] := congrArg QualifiedName.namespaces (List.mem_singleton.mp hnew)
        rw [hroot] at hlt
        exact Nat.not_lt_zero spaces.length hlt

/-! ## Files -/

theorem Item.allDeclarations_append (scope : List String) (items more : List Item) :
    Item.allDeclarations scope (items ++ more) =
      Item.allDeclarations scope items ++ Item.allDeclarations scope more := by
  induction items with
  | nil => rfl
  | cons item items ih =>
    rw [List.cons_append, allDeclarations, allDeclarations, ih, List.append_assoc]

namespace InterfaceFile

/-- The file with a forward declaration behind everything else. -/
def forwarded (file : InterfaceFile) (decl : ForwardDecl) : InterfaceFile :=
  ⟨file.items ++ [.forward decl]⟩

variable {file : InterfaceFile} {decl : ForwardDecl}

/-- The line adds one declaration, behind all others and at the root. -/
theorem declarations_forwarded :
    (file.forwarded decl).declarations = file.declarations ++ [⟨[], .forward decl⟩] :=
  Item.allDeclarations_append [] file.items [.forward decl]

@[simp] theorem definitions_forwarded : (file.forwarded decl).definitions = file.definitions := by
  rw [definitions, declarations_forwarded, Declaration.definitions, List.filterMap_append]
  exact List.append_nil _

@[simp] theorem types_forwarded : (file.forwarded decl).types = file.types := by
  rw [types, definitions_forwarded, types]

@[simp] theorem definedPaths_forwarded :
    (file.forwarded decl).definedPaths = file.definedPaths := by
  rw [definedPaths, declarations_forwarded, Declaration.definedPaths, List.filter_append,
    List.map_append]
  exact List.append_nil _

theorem forwardPaths_forwarded :
    (file.forwarded decl).forwardPaths = file.forwardPaths ++ [.bare decl.name] := by
  rw [forwardPaths, declarations_forwarded, forwardPaths_append]
  rfl

/-- The file stays well named if the line names an identifier. -/
theorem Wellnamed.forwarded (h : file.Wellnamed) (hname : isIdentifier decl.name = true) :
    (file.forwarded decl).Wellnamed where
  declared d hd := by
    rw [declarations_forwarded] at hd
    rcases List.mem_append.mp hd with hold | hnew
    · exact h.declared d hold
    · rw [List.mem_singleton.mp hnew]
      exact QualifiedName.wellformed_bare hname
  used type htype := h.used type (types_forwarded ▸ htype)

/-- A forward declaration never makes a duplicate. -/
theorem distinct_forwarded (h : Distinct file.declarations) :
    Distinct (file.forwarded decl).declarations := by
  rw [declarations_forwarded, SymbolTable.distinct_concat_iff]
  refine ⟨h, ?_⟩
  rintro ⟨hdefinition, -⟩
  exact Bool.false_ne_true hdefinition

end InterfaceFile

/-! ## Accepted files -/

namespace Classified

variable {settings : CheckSettings} {file : InterfaceFile} {table table' : SymbolTable}
  {m : Module} {decl : ForwardDecl}

/-- A name keeps what it denotes: a bare name is looked up in the scopes around first. -/
theorem denotes_forwarded {scope : List String} {name p : QualifiedName}
    (h : Denotes file.definedPaths file.forwardPaths scope name p) :
    Denotes (file.forwarded decl).definedPaths (file.forwarded decl).forwardPaths scope name p := by
  rw [InterfaceFile.definedPaths_forwarded, InterfaceFile.forwardPaths_forwarded]
  exact h.forwarded decl.name

/-- The file still resolves, since no meaning is taken away. -/
theorem exists_table_forwarded (h : Classified settings file table m)
    (hids : (file.types.map (·.id)).Nodup) (hname : isIdentifier decl.name = true) :
    ∃ table', SymbolTable.ofFile (file.forwarded decl) = .ok table' := by
  apply SymbolTable.exists_of_denotes (h.wellnamed.forwarded hname)
  · rwa [InterfaceFile.types_forwarded]
  · exact InterfaceFile.distinct_forwarded h.distinct
  · intro d hd type htype hclass
    rw [InterfaceFile.definitions_forwarded] at hd
    obtain ⟨r, -, hdenotes, -⟩ := h.follows.reference d hd type htype hclass
    exact ⟨r.path, denotes_forwarded hdenotes⟩

/-- A path leads somewhere if and only if it is declared. -/
theorem lookup_isSome_iff (h : Classified settings file table m) {q : QualifiedName}
    (hq : q.Wellformed) :
    (m.lookup q.text).isSome = true ↔ q ∈ file.definedPaths ∨ q ∈ file.forwardPaths := by
  rcases h.lookup_cases hq with ⟨c, hc, -, hknown, -⟩ | ⟨hnone, hunknown⟩
  · simp [hc, hknown]
  · simpa [hnone] using hunknown

/-- A path is forward only as long as nothing defines it. -/
theorem isForwardOnly_iff (h : Classified settings file table m) {q : QualifiedName}
    (hq : q.Wellformed) :
    table.isForwardOnly q.text = true ↔ q ∈ file.forwardPaths ∧ q ∉ file.definedPaths :=
  h.records.isForwardOnly_iff h.wellnamed.declared hq

/-- The path of the new declaration is only forward declared now, unless it is defined. -/
theorem isForwardOnly_forwarded_iff (h : Classified settings file table m)
    (hname : isIdentifier decl.name = true)
    (hrecords : table'.Records (file.forwarded decl).declarations) {q : QualifiedName}
    (hq : q.Wellformed) : table'.isForwardOnly q.text = true ↔
      (q ∈ file.forwardPaths ∨ q = .bare decl.name) ∧ q ∉ file.definedPaths := by
  have hforward : q ∈ (file.forwarded decl).forwardPaths ↔
      q ∈ file.forwardPaths ∨ q = .bare decl.name := by
    rw [InterfaceFile.forwardPaths_forwarded, List.mem_append, List.mem_singleton]
  have hdefined : q ∈ (file.forwarded decl).definedPaths ↔ q ∈ file.definedPaths := by
    rw [InterfaceFile.definedPaths_forwarded]
  have hiff := hrecords.isForwardOnly_iff (h.wellnamed.forwarded hname).declared hq
  exact hiff.trans (and_congr hforward (not_congr hdefined))

/-- What the file declares is settled as before. -/
theorem settleAll_forwarded (h : Classified settings file table m)
    (hname : isIdentifier decl.name = true)
    (hrecords : table'.Records (file.forwarded decl).declarations) :
    Item.settleAll table' [] [] file.items = Item.settleAll table [] [] file.items := by
  apply Item.settleAll_congr
  intro d hd hforward
  have hpath : d.path.Wellformed := h.wellnamed.declared d hd
  have hmem : d.path ∈ file.forwardPaths := mem_forwardPaths.mpr ⟨d, hd, hforward, rfl⟩
  rw [Bool.eq_iff_iff, h.isForwardOnly_forwarded_iff hname hrecords hpath,
    h.isForwardOnly_iff hpath]
  exact and_congr_left fun _ => iff_of_true (.inl hmem) hmem

/-- The paths that have been met in the end are those that are only forward declared. -/
theorem mem_settled_iff (h : Classified settings file table m) {q : QualifiedName}
    (hq : q.Wellformed) : q.text ∈ (Item.settleAll table [] [] file.items).2 ↔
      q ∈ file.forwardPaths ∧ q ∉ file.definedPaths := by
  have hmet := congrArg Prod.snd (Item.declarations_settleAll table [] [] file.items)
  dsimp only at hmet
  rw [hmet, mem_settle_met_iff, or_iff_right List.not_mem_nil, h.isForwardOnly_iff hq]
  apply and_iff_left_of_imp
  rintro ⟨hforward, -⟩
  obtain ⟨d, hd, hdeclared, rfl⟩ := mem_forwardPaths.mp hforward
  exact ⟨d, hd, hdeclared, rfl⟩

/-- The new declaration survives unless the tree has a class of its name already. -/
theorem settled_forwarded (h : Classified settings file table m)
    (hname : isIdentifier decl.name = true)
    (hrecords : table'.Records (file.forwarded decl).declarations) :
    (Item.settleAll table' [] [] (file.forwarded decl).items).1 =
      (Item.settleAll table [] [] file.items).1 ++
        if (m.lookup decl.name).isSome then [] else [.forward decl] := by
  have hbare : (QualifiedName.bare decl.name).Wellformed := QualifiedName.wellformed_bare hname
  have hnew := h.isForwardOnly_forwarded_iff hname hrecords hbare
  have hmet := h.mem_settled_iff hbare
  have hfound : (m.lookup decl.name).isSome = true ↔ _ := h.lookup_isSome_iff hbare
  have hkeep : (table'.isForwardOnly (QualifiedName.text ⟨[], decl.name⟩) &&
      decide (QualifiedName.text ⟨[], decl.name⟩ ∉ (Item.settleAll table [] [] file.items).2)) =
        !(m.lookup decl.name).isSome := by
    rw [Bool.eq_iff_iff, Bool.and_eq_true, decide_eq_true_iff, Bool.not_eq_true', Bool.eq_false_iff,
      Ne, hfound]
    show table'.isForwardOnly (QualifiedName.bare decl.name).text = true ∧
      (QualifiedName.bare decl.name).text ∉ _ ↔ _
    rw [hnew, hmet]
    tauto
  rw [InterfaceFile.forwarded, Item.settleAll_append, h.settleAll_forwarded hname hrecords,
    Item.settleAll, Item.settle, hkeep]
  cases (m.lookup decl.name).isSome <;> rfl

/-- Every class in the tree is what it was. -/
theorem lowers_forwarded (h : Classified settings file table m)
    (hfollows : table'.Follows (file.forwarded decl)) :
    Module.Lowers (Class.Lowers (TypeRef.Lowers table') settings) [] none
      (Item.settleAll table [] [] file.items).1 m := by
  apply h.lowers.imp
  intro scope inherited definition hd c _ hc
  rw [SymbolTable.declarations_settled] at hd
  have hmem : ⟨scope, definition⟩ ∈ file.definitions :=
    InterfaceFile.mem_definitions_iff.mpr (settle_sublist.subset hd)
  have hmem' : ⟨scope, definition⟩ ∈ (file.forwarded decl).definitions := by
    rwa [InterfaceFile.definitions_forwarded]
  apply hc.imp
  intro position type htype r _ hr
  refine hr.transfer h.follows hfollows hmem hmem' htype denotes_forwarded ?_
  intro q
  rw [InterfaceFile.definedPaths_forwarded]

/-- The tree of the file with the new declaration. -/
theorem module_forwarded (h : Classified settings file table m)
    (hids : (file.types.map (·.id)).Nodup) (hname : isIdentifier decl.name = true) :
    (file.forwarded decl).module settings = .ok ⟨m.namespaces, if (m.lookup decl.name).isSome then
      m.classes else m.classes ++ [.stub (.bare decl.name)]⟩ := by
  obtain ⟨table', htable⟩ := h.exists_table_forwarded hids hname
  obtain ⟨-, hrecords, hfollows, -⟩ := SymbolTable.follows_of_ofFile (h.wellnamed.forwarded hname)
    (by rwa [InterfaceFile.types_forwarded]) htable
  refine Except.bind_eq_ok_iff.mpr ⟨table', htable, Item.classifyAll_eq_ok_iff.mpr ?_⟩
  have hold := h.lowers_forwarded hfollows
  rw [h.settled_forwarded hname hrecords]
  by_cases hfound : (m.lookup decl.name).isSome = true
  · rwa [if_pos hfound, if_pos hfound, List.append_nil]
  · rw [if_neg hfound, if_neg hfound]
    have hnew : Module.Lowers (Class.Lowers (TypeRef.Lowers table') settings) [] none
        [.forward decl] ⟨[], [.stub (.bare decl.name)]⟩ := .forward .nil
    have hboth := hold.append hnew
    rw [Module.beside, List.append_nil] at hboth
    exact hboth

end Classified

/-! ## Texts -/

/-- A forward declaration that stands alone. -/
theorem InterfaceFile.ofText_forward (settings : GrammarSettings) {name : String}
    (hname : isIdentifier name = true) (hupper : startsUpper name = true) :
    ∃ decl : ForwardDecl, decl.name = name ∧
      ofText settings ("class " ++ name ++ ";") = .ok ⟨[.forward decl]⟩ := by
  have hclear : Piece.AllStand [] [.fixed .classKeyword, .space, .name name, .fixed .semicolon] :=
    ⟨Piece.stands_keyword rfl (Piece.endsWord_cons rfl _), trivial,
      Piece.stands_name hname (Piece.endsWord_cons rfl _), Piece.stands_mark rfl _, trivial⟩
  have hspelled : ("class " ++ name ++ ";").toList =
      Piece.spelled [.fixed .classKeyword, .space, .name name, .fixed .semicolon] := by
    simp [Piece.name, Piece.fixed, Piece.chars, TokenKind.describe]
  obtain ⟨decl, hdecl, hforward⟩ : ∃ decl : ForwardDecl, decl.name = name ∧
      Grammar.IsItem settings 0 (Piece.tokens .origin
        [.fixed .classKeyword, .space, .name name, .fixed .semicolon]) (.forward decl) 1 := by
    rw [Piece.tokens_fixed, Piece.tokens_space, Piece.tokens_name, Piece.tokens_fixed]
    exact ⟨_, rfl, .forward (.mk rfl rfl hupper rfl)⟩
  have hitems := Grammar.IsItems.cons hforward .nil
  rw [List.append_nil] at hitems
  exact ⟨decl, hdecl, ofText_of_isFile (Piece.ofText_line hspelled hclear) ⟨1, hitems⟩⟩

/-- A text that can be read can be read with another forward declaration on a line behind it. -/
theorem InterfaceFile.exists_forwarded {settings : GrammarSettings} {text : String}
    {file : InterfaceFile} (h : ofText settings text = .ok file) {name : String}
    (hname : isIdentifier name = true) (hupper : startsUpper name = true) :
    ∃ decl : ForwardDecl, decl.name = name ∧
      ofText settings (text ++ "\n" ++ ("class " ++ name ++ ";")) = .ok (file.forwarded decl) := by
  obtain ⟨decl, hdecl, hforward⟩ := ofText_forward settings hname hupper
  obtain ⟨us, htokens, -⟩ := items_of_ofText hforward
  have hbehind := ofText_join h htokens
  rw [hforward] at hbehind
  exact ⟨decl.shift _, hdecl, hbehind⟩

/-- Another class may be declared on a line behind any accepted text. The tree only gains a stub for
it, and not even that if a class of this name is at the root already: what every reference leads to,
and how it is wrapped, is left as it was. -/
theorem Module.ofText_forwarded {settings : Settings} {text : String} {m : Module}
    (h : ofText settings text = .ok m) {name : String} (hname : isIdentifier name = true)
    (hupper : startsUpper name = true) :
    ofText settings (text ++ "\n" ++ ("class " ++ name ++ ";")) =
      .ok ⟨m.namespaces, if (m.lookup name).isSome then m.classes
        else m.classes ++ [.stub (.bare name)]⟩ := by
  obtain ⟨file, hfile, hmodule⟩ := ofText_eq_ok_iff.mp h
  obtain ⟨table, hm⟩ := InterfaceFile.compiled_of_module hfile hmodule
  obtain ⟨-, hids⟩ := InterfaceFile.spelled_of_ofText hfile
  obtain ⟨decl, rfl, hforwarded⟩ := InterfaceFile.exists_forwarded hfile hname hupper
  exact ofText_eq_ok_iff.mpr ⟨_, hforwarded, hm.module_forwarded hids hname⟩

/-- Inside `geo`, a bare `Base` stays what it was when a class of that name is declared at the root.
Declaring `Far` again, which `other::Far` is trusted for, changes nothing. -/
def besideText : String :=
  "class Far;\nnamespace geo \x7b\nclass Base \x7b\n\x7d;\n"
    ++ "class Point \x7b\nPoint(Base base, other::Far far);\n\x7d;\n\x7d\n"

/-- A `Base` at the root is new, so its stub is added; `Far` is there already, and the module
stays. -/
theorem Module.besideText_forwarded : ∃ m, Module.ofText default besideText = .ok m ∧
    isIdentifier "Base" = true ∧ startsUpper "Base" = true ∧
    Module.ofText default (besideText ++ "\n" ++ ("class " ++ "Base" ++ ";")) =
      .ok ⟨m.namespaces, m.classes ++ [.stub (.bare "Base")]⟩ ∧
    Module.ofText default (besideText ++ "\n" ++ ("class " ++ "Far" ++ ";")) = .ok m := by
  have hlookup : (Module.ofText default besideText).toOption.map
      (fun m => ((m.lookup "Base").isSome, (m.lookup "Far").isSome)) = some (false, true) := by
    decide +kernel
  cases hrun : Module.ofText default besideText with
  | error ds => rw [hrun] at hlookup; cases hlookup
  | ok m =>
    rw [hrun] at hlookup
    obtain ⟨hbase, hfar⟩ := Prod.mk.inj (Option.some.inj hlookup)
    have hnew := ofText_forwarded hrun (show isIdentifier "Base" = true by decide) (by decide)
    have hagain := ofText_forwarded hrun (show isIdentifier "Far" = true by decide) (by decide)
    rw [hbase] at hnew
    rw [hfar] at hagain
    exact ⟨m, rfl, by decide, by decide, hnew, hagain⟩

end BindingIdl
