import BindingIdl.Proofs.Module.Lowering

/-!
# The forward declarations that survive

Before classification, `Item.settleAll` drops the forward declarations that add nothing. Seen as a
change to the list of all declarations it is `settle`, which keeps every class with a body and, of
the forward declarations, the first for each path that the file does not define. So each path of the
file is declared once in what is left.
-/

namespace BindingIdl

/-- The declarations that are left, where `F` tells the paths that are only forward declared and
those in `placed` have been met before; and the paths met by then. -/
def Declaration.settle (F : String → Bool) (placed : List String) :
    List (Scoped Declaration) → List (Scoped Declaration) × List String
  | [] => ([], placed)
  | d :: ds =>
    if d.decl.isDefinition then
      let (rest, met) := settle F placed ds
      (d :: rest, met)
    else if F d.path.text && d.path.text ∉ placed then
      let (rest, met) := settle F (d.path.text :: placed) ds
      (d :: rest, met)
    else settle F placed ds

namespace Declaration

variable {F : String → Bool} {placed : List String} {d e : Scoped Declaration}
  {ds : List (Scoped Declaration)}

/-- Definitions always stay. -/
theorem settle_definition (h : d.decl.isDefinition = true) :
    settle F placed (d :: ds) = (d :: (settle F placed ds).1, (settle F placed ds).2) := by
  rw [settle, if_pos h]

/-- The first forward declaration of a path stays where nothing defines it. -/
theorem settle_kept (h : d.decl.isDefinition = false)
    (hkeep : (F d.path.text && d.path.text ∉ placed) = true) :
    settle F placed (d :: ds) = (d :: (settle F (d.path.text :: placed) ds).1,
      (settle F (d.path.text :: placed) ds).2) := by
  rw [settle, if_neg (by simp [h]), if_pos hkeep]

/-- Any later one is dropped, and so is one of a class that is defined. -/
theorem settle_dropped (h : d.decl.isDefinition = false)
    (hdrop : ¬ (F d.path.text && d.path.text ∉ placed) = true) :
    settle F placed (d :: ds) = settle F placed ds := by
  rw [settle, if_neg (by simp [h]), if_neg hdrop]

theorem settle_append (ds es : List (Scoped Declaration)) :
    settle F placed (ds ++ es) =
      ((settle F placed ds).1 ++ (settle F (settle F placed ds).2 es).1,
        (settle F (settle F placed ds).2 es).2) := by
  induction ds generalizing placed with
  | nil => rfl
  | cons d ds ih =>
    simp only [List.cons_append, settle]
    split
    · rw [ih]
      rfl
    · split
      · rw [ih]
        rfl
      · exact ih

end Declaration

open Declaration

/-- Settling the items settles their declarations. -/
theorem Item.declarations_settleAll (table : SymbolTable) (scope placed : List String)
    (items : List Item) :
    (Item.allDeclarations scope (settleAll table scope placed items).1,
      (settleAll table scope placed items).2) =
    Declaration.settle table.isForwardOnly placed (Item.allDeclarations scope items) := by
  induction items using Item.induction generalizing scope placed with
  | nil => rfl
  | space head items rest ih ihrest =>
    -- what was met inside the namespace counts as met behind it
    have hinner := ih (scope ++ head.name.toList) placed
    rw [settleAll, settle, Item.allDeclarations, Item.declarations, settle_append, ← hinner]
    have hrest := ihrest scope (settleAll table (scope ++ head.name.toList) placed items).2
    dsimp only at hrest ⊢
    rw [← hrest]
    rfl
  | definition decl rest ih =>
    rw [settleAll, settle, Item.allDeclarations, Item.declarations, List.singleton_append,
      settle_definition rfl, ← ih scope placed]
    rfl
  | forward decl rest ih =>
    have hscoped : QualifiedName.text ⟨scope, decl.name⟩ =
        (⟨scope, .forward decl⟩ : Scoped Declaration).path.text := rfl
    rw [settleAll, settle, Item.allDeclarations, Item.declarations, List.singleton_append]
    by_cases hkeep : (table.isForwardOnly (QualifiedName.text ⟨scope, decl.name⟩) &&
        QualifiedName.text ⟨scope, decl.name⟩ ∉ placed) = true
    · rw [settle_kept rfl hkeep, ← hscoped,
        ← ih scope (QualifiedName.text ⟨scope, decl.name⟩ :: placed)]
      simp only [hkeep, if_true]
      rfl
    · rw [settle_dropped rfl hkeep, ← ih scope placed]
      simp only [hkeep]
      rfl

/-! ## What is left -/

section

variable {F : String → Bool} {placed : List String} {d : Scoped Declaration}
  {ds : List (Scoped Declaration)}

/-- Settling drops declarations and keeps their order. -/
theorem Declaration.settle_sublist : (settle F placed ds).1.Sublist ds := by
  induction ds generalizing placed with
  | nil => exact .slnil
  | cons d ds ih =>
    rw [settle]
    split
    · exact ih.cons_cons d
    · split
      · exact ih.cons_cons d
      · exact ih.cons d

/-- Every class with a body is left. -/
theorem Declaration.mem_settle_of_isDefinition (hd : d ∈ ds) (hdef : d.decl.isDefinition = true) :
    d ∈ (settle F placed ds).1 := by
  induction ds generalizing placed with
  | nil => exact absurd hd List.not_mem_nil
  | cons e ds ih =>
    rw [settle]
    obtain rfl | hd := List.mem_cons.mp hd
    · rw [if_pos hdef]
      exact List.mem_cons_self
    · split
      · exact List.mem_cons_of_mem _ (ih hd)
      · split
        · exact List.mem_cons_of_mem _ (ih hd)
        · exact ih hd

/-- For every path that is only forward declared, a forward declaration is left. -/
theorem Declaration.exists_forward_mem_settle (hd : d ∈ ds) (hforward : d.decl.isDefinition = false)
    (hF : F d.path.text = true) (hplaced : d.path.text ∉ placed) :
    ∃ e ∈ (settle F placed ds).1, e.decl.isDefinition = false ∧ e.path.text = d.path.text := by
  induction ds generalizing placed with
  | nil => exact absurd hd List.not_mem_nil
  | cons e ds ih =>
    cases hdef : e.decl.isDefinition with
    | true =>
      rw [settle_definition hdef]
      obtain rfl | hd := List.mem_cons.mp hd
      · rw [hforward] at hdef
        cases hdef
      · obtain ⟨e', he', h⟩ := ih hd hplaced
        exact ⟨e', List.mem_cons_of_mem _ he', h⟩
    | false =>
      by_cases hkeep : (F e.path.text && e.path.text ∉ placed) = true
      · -- the first one of a path is kept, and stands for all of them
        rw [settle_kept hdef hkeep]
        by_cases hsame : e.path.text = d.path.text
        · exact ⟨e, List.mem_cons_self, hdef, hsame⟩
        · obtain rfl | hd := List.mem_cons.mp hd
          · exact absurd rfl hsame
          · have hplaced' : d.path.text ∉ e.path.text :: placed := by
              simp [hplaced, Ne.symm hsame]
            obtain ⟨e', he', h⟩ := ih hd hplaced'
            exact ⟨e', List.mem_cons_of_mem _ he', h⟩
      · rw [settle_dropped hdef hkeep]
        obtain rfl | hd := List.mem_cons.mp hd
        · -- nothing dropped it: the path is only forward declared and has not been met
          simp [hF, hplaced] at hkeep
        · exact ih hd hplaced

/-- A forward declaration is left only where the path is only forward declared and new. -/
theorem Declaration.of_forward_mem_settle (hd : d ∈ (settle F placed ds).1)
    (hforward : d.decl.isDefinition = false) :
    F d.path.text = true ∧ d.path.text ∉ placed := by
  induction ds generalizing placed with
  | nil => exact absurd hd List.not_mem_nil
  | cons e ds ih =>
    cases hdef : e.decl.isDefinition with
    | true =>
      rw [settle_definition hdef] at hd
      obtain rfl | hd := List.mem_cons.mp hd
      · rw [hforward] at hdef
        cases hdef
      · exact ih hd
    | false =>
      by_cases hkeep : (F e.path.text && e.path.text ∉ placed) = true
      · rw [settle_kept hdef hkeep] at hd
        obtain rfl | hd := List.mem_cons.mp hd
        · simpa using hkeep
        · obtain ⟨hF, hplaced⟩ := ih hd
          exact ⟨hF, fun h => hplaced (List.mem_cons_of_mem _ h)⟩
      · rw [settle_dropped hdef hkeep] at hd
        exact ih hd

/-- No two of the declarations that are left have one path, if no class is defined twice and
paths that are only forward declared are not defined. -/
theorem Declaration.settle_pairwise (hdistinct : Distinct ds)
    (hF : ∀ d ∈ ds, d.decl.isDefinition = true → F d.path.text = false) :
    (settle F placed ds).1.Pairwise fun d e => d.path.text ≠ e.path.text := by
  induction ds generalizing placed with
  | nil => exact .nil
  | cons d ds ih =>
    obtain ⟨hfirst, hrest⟩ := List.pairwise_cons.mp hdistinct
    have hF' := fun e he => hF e (List.mem_cons_of_mem d he)
    cases hdef : d.decl.isDefinition with
    | true =>
      rw [settle_definition hdef]
      refine List.pairwise_cons.mpr ⟨fun e he hsame => ?_, ih hrest hF'⟩
      -- two classes with bodies are distinct, and `F` tells a body from what is only forward
      cases hedef : e.decl.isDefinition with
      | true => exact hfirst e (settle_sublist.subset he) hdef hedef hsame
      | false =>
        have hforward := (of_forward_mem_settle he hedef).1
        rw [← hsame, hF d List.mem_cons_self hdef] at hforward
        cases hforward
    | false =>
      by_cases hkeep : (F d.path.text && d.path.text ∉ placed) = true
      · rw [settle_kept hdef hkeep]
        refine List.pairwise_cons.mpr ⟨fun e he hsame => ?_, ih hrest hF'⟩
        cases hedef : e.decl.isDefinition with
        | true =>
          have hforward : F d.path.text = true := by simp at hkeep; exact hkeep.1
          rw [hsame, hF' e (settle_sublist.subset he) hedef] at hforward
          cases hforward
        | false =>
          exact (of_forward_mem_settle he hedef).2 (hsame ▸ List.mem_cons_self)
      · rw [settle_dropped hdef hkeep]
        exact ih hrest hF'

/-- In the end, what counts as met has been met before or was found to be only forward declared. -/
theorem Declaration.mem_settle_met_iff {path : String} : path ∈ (settle F placed ds).2 ↔
    path ∈ placed ∨ F path = true ∧ ∃ d ∈ ds, d.decl.isDefinition = false ∧ d.path.text = path := by
  induction ds generalizing placed with
  | nil => simp [settle]
  | cons d ds ih =>
    simp only [List.exists_mem_cons_iff]
    cases hdef : d.decl.isDefinition with
    | true => simp [settle_definition hdef, ih]
    | false =>
      by_cases hkeep : (F d.path.text && d.path.text ∉ placed) = true
      · rw [settle_kept hdef hkeep, ih, List.mem_cons]
        have hforward : F d.path.text = true := (Bool.and_eq_true_iff.mp hkeep).1
        constructor
        · rintro ((rfl | h) | ⟨hF, h⟩)
          · exact .inr ⟨hforward, .inl ⟨rfl, rfl⟩⟩
          · exact .inl h
          · exact .inr ⟨hF, .inr h⟩
        · rintro (h | ⟨hF, ⟨-, rfl⟩ | h⟩)
          · exact .inl (.inr h)
          · exact .inl (.inl rfl)
          · exact .inr ⟨hF, h⟩
      · rw [settle_dropped hdef hkeep, ih]
        constructor
        · exact .imp_right (.imp_right .inr)
        · rintro (h | ⟨hF, ⟨-, rfl⟩ | h⟩)
          · exact .inl h
          · -- a path that is only forward declared is dropped because it has been met
            exact .inl (by simpa [hF] using hkeep)
          · exact .inr ⟨hF, h⟩

end

/-- Nothing is dropped where every path is declared once, and with a body unless it is only forward
declared. -/
theorem Item.settleAll_eq_self {table : SymbolTable} {scope placed : List String}
    {items : List Item}
    (hdistinct : (Item.allDeclarations scope items).Pairwise fun d e => d.path.text ≠ e.path.text)
    (hplaced : ∀ d ∈ Item.allDeclarations scope items, d.path.text ∉ placed)
    (hforward : ∀ d ∈ Item.allDeclarations scope items, d.decl.isDefinition = false →
      table.isForwardOnly d.path.text = true) :
    (settleAll table scope placed items).1 = items := by
  induction items using Item.induction generalizing scope placed with
  | nil => rfl
  | space head items rest ih ihrest =>
    obtain ⟨hinner, hrest, hcross⟩ := List.pairwise_append.mp hdistinct
    have hmet := congrArg Prod.snd
      (Item.declarations_settleAll table (scope ++ head.name.toList) placed items)
    rw [settleAll, settle]
    dsimp only at hmet ⊢
    rw [ih hinner (fun d hd => hplaced d (List.mem_append_left _ hd))
      (fun d hd => hforward d (List.mem_append_left _ hd)), ihrest hrest (fun d hd hmem => ?_)
      (fun d hd => hforward d (List.mem_append_right _ hd)), List.singleton_append]
    -- what has been placed inside the block is declared there, and so nowhere behind it
    rw [hmet] at hmem
    obtain hmem | ⟨-, e, he, -, hsame⟩ := mem_settle_met_iff.mp hmem
    · exact hplaced d (List.mem_append_right _ hd) hmem
    · exact hcross e he d hd hsame
  | definition decl rest ih =>
    rw [settleAll, settle]
    dsimp only
    rw [ih (List.pairwise_cons.mp hdistinct).2 (fun d hd => hplaced d (List.mem_cons_of_mem _ hd))
      (fun d hd => hforward d (List.mem_cons_of_mem _ hd)), List.singleton_append]
  | forward decl rest ih =>
    obtain ⟨hfirst, hrest⟩ := List.pairwise_cons.mp hdistinct
    -- no other declaration has this path, so the stub is the first and is kept
    have hkeep : (table.isForwardOnly (QualifiedName.text ⟨scope, decl.name⟩) &&
        QualifiedName.text ⟨scope, decl.name⟩ ∉ placed) = true := by
      rw [Bool.and_eq_true]
      exact ⟨hforward ⟨scope, .forward decl⟩ List.mem_cons_self rfl,
        decide_eq_true (hplaced ⟨scope, .forward decl⟩ List.mem_cons_self)⟩
    rw [settleAll, settle]
    simp only [hkeep, if_true]
    rw [ih hrest (fun d hd hmem => ?_) (fun d hd => hforward d (List.mem_cons_of_mem _ hd)),
      List.singleton_append]
    obtain hsame | hmem := List.mem_cons.mp hmem
    · exact hfirst d hd hsame.symm
    · exact hplaced d (List.mem_cons_of_mem _ hd) hmem

/-- Items are settled one list after the other. -/
theorem Item.settleAll_append (table : SymbolTable) (scope placed : List String)
    (items more : List Item) : settleAll table scope placed (items ++ more) =
      ((settleAll table scope placed items).1 ++
          (settleAll table scope (settleAll table scope placed items).2 more).1,
        (settleAll table scope (settleAll table scope placed items).2 more).2) := by
  induction items generalizing placed with
  | nil => rfl
  | cons item items ih =>
    rw [List.cons_append, settleAll, settleAll]
    dsimp only
    rw [ih, List.append_assoc]

/-- Two tables settle items alike where they agree on the forward declarations in them. -/
theorem Item.settleAll_congr {table table' : SymbolTable} {scope placed : List String}
    {items : List Item} (h : ∀ d ∈ Item.allDeclarations scope items, d.decl.isDefinition = false →
      table.isForwardOnly d.path.text = table'.isForwardOnly d.path.text) :
    settleAll table scope placed items = settleAll table' scope placed items := by
  induction items using Item.induction generalizing scope placed with
  | nil => rfl
  | space head items rest ih ihrest =>
    rw [settleAll, settleAll, settle, settle, ih fun d hd => h d (List.mem_append_left _ hd)]
    dsimp only
    rw [ihrest fun d hd => h d (List.mem_append_right _ hd)]
  | definition decl rest ih =>
    rw [settleAll, settleAll, settle, settle]
    dsimp only
    rw [ih fun d hd => h d (List.mem_cons_of_mem _ hd)]
  | forward decl rest ih =>
    have hthis : table.isForwardOnly (QualifiedName.text ⟨scope, decl.name⟩) =
        table'.isForwardOnly (QualifiedName.text ⟨scope, decl.name⟩) :=
      h ⟨scope, .forward decl⟩ List.mem_cons_self rfl
    have hrest (placed : List String) :=
      @ih scope placed fun d hd => h d (List.mem_cons_of_mem _ hd)
    rw [settleAll, settleAll, settle, settle, hthis]
    simp only [hrest]

/-! ## In a file -/

namespace SymbolTable

variable {ds : List (Scoped Declaration)} {table : SymbolTable}

/-- The table knows of each path whether it is defined. -/
theorem Records.isForwardOnly_iff (h : Records ds table) (hds : ∀ d ∈ ds, d.path.Wellformed)
    {q : QualifiedName} (hq : q.Wellformed) :
    table.isForwardOnly q.text = true ↔ q ∈ forwardPaths ds ∧ q ∉ definedPaths ds := by
  rw [isForwardOnly]
  obtain ⟨hnone, hunknown⟩ | ⟨id, s, hid, hs, hpath, hknown, hforward⟩ := h.lookup_path hds hq
  · simp only [hnone, Option.bind_none, Option.any_none, Bool.false_eq_true, false_iff]
    exact fun hq => hunknown (.inr hq.1)
  · rw [hid, Option.bind_some, hs, Option.any_some, hforward]
    exact ⟨fun hdefined => ⟨hknown.resolve_left hdefined, hdefined⟩, And.right⟩

/-- The declarations of a file that are left once it is settled. -/
def survivors (table : SymbolTable) (ds : List (Scoped Declaration)) : List (Scoped Declaration) :=
  (Declaration.settle table.isForwardOnly [] ds).1

/-- To settle the items is to settle what they declare. -/
theorem declarations_settled (table : SymbolTable) (items : List Item) :
    Item.allDeclarations [] (Item.settleAll table [] [] items).1 =
      table.survivors (Item.allDeclarations [] items) :=
  congrArg Prod.fst (Item.declarations_settleAll table [] [] items)

/-- Each path of the file is declared once in what is left. -/
theorem Records.survivors_pairwise (h : Records ds table) (hds : ∀ d ∈ ds, d.path.Wellformed)
    (hdistinct : Distinct ds) :
    (table.survivors ds).Pairwise fun d e => d.path.text ≠ e.path.text := by
  refine settle_pairwise hdistinct fun d hd hdef => ?_
  cases hforward : table.isForwardOnly d.path.text with
  | false => rfl
  | true =>
    have := ((h.isForwardOnly_iff hds (hds d hd)).mp hforward).2
    exact absurd (mem_definedPaths.mpr ⟨d, hd, hdef, rfl⟩) this

/-- No definition is lost. -/
theorem definedPaths_survivors {q : QualifiedName} :
    q ∈ definedPaths (table.survivors ds) ↔ q ∈ definedPaths ds := by
  rw [mem_definedPaths, mem_definedPaths]
  constructor
  · rintro ⟨d, hd, hdef, rfl⟩
    exact ⟨d, settle_sublist.subset hd, hdef, rfl⟩
  · rintro ⟨d, hd, hdef, rfl⟩
    exact ⟨d, mem_settle_of_isDefinition hd hdef, hdef, rfl⟩

/-- Of the forward declarations those are left whose path is not defined. -/
theorem Records.forwardPaths_survivors (h : Records ds table)
    (hds : ∀ d ∈ ds, d.path.Wellformed) {q : QualifiedName} :
    q ∈ forwardPaths (table.survivors ds) ↔ q ∈ forwardPaths ds ∧ q ∉ definedPaths ds := by
  constructor
  · intro hq
    obtain ⟨d, hd, hforward, rfl⟩ := mem_forwardPaths.mp hq
    have hmem := settle_sublist.subset hd
    exact (h.isForwardOnly_iff hds (hds d hmem)).mp (of_forward_mem_settle hd hforward).1
  · rintro ⟨hq, hdefined⟩
    obtain ⟨d, hd, hforward, rfl⟩ := mem_forwardPaths.mp hq
    have honly := (h.isForwardOnly_iff hds (hds d hd)).mpr ⟨hq, hdefined⟩
    obtain ⟨e, he, heforward, htext⟩ :=
      exists_forward_mem_settle hd hforward honly List.not_mem_nil
    have hpath := QualifiedName.text_injective (hds e (settle_sublist.subset he)) (hds d hd) htext
    exact mem_forwardPaths.mpr ⟨e, he, heforward, hpath⟩

end SymbolTable

end BindingIdl
