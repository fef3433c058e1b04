import BindingIdl.Proofs.Grammar.Violations
import BindingIdl.Proofs.Module.References

/-!
# Turning settings off

Each setting asks for one thing more, and where it is met the setting makes no difference. For one
declaration per line the two readings of a file run side by side (`View.ofStrictness`), and the lax
one sees every report but those of crowded members. Which these are is seen on a derivation: what
the lax grammar derives is derived with reports under the strict settings, and all of these are
about crowded pairs (`Grammar.IsItems.isLoose`). For ambiguous constructors the two checks are the
same up to the constructor that stops the strict one (`Stricter`): the lax check lets that
constructor in, and it lets every other one in among the same earlier ones.

The main statement is `Settings.strictness_only_refuses`.
-/

namespace BindingIdl

/-! ## One declaration per line -/

/-- The strict reading as it is seen in the lax one. -/
def View.ofStrictness : View where
  shift := 0
  sees d := !d.cause.isCrowding
  own := ⟨true⟩
  other := ⟨false⟩
  sees_unconditional d h := by
    rw [Cause.isUnconditional, Bool.and_eq_true] at h
    exact h.2
  sees_crowding := .inr ⟨rfl, fun d h => by rw [h]; rfl⟩

namespace InterfaceFile

variable {size : Nat} {tokens : List Token}

/-- What lax settings report is what strict ones report, less the crowded members. -/
theorem errors_lax (size : Nat) (tokens : List Token) :
    errors ⟨false⟩ size tokens = (errors ⟨true⟩ size tokens).filter (!·.cause.isCrowding) := by
  rw [errors_eq, errors_eq]
  exact (reading_view .ofStrictness rfl size tokens).2

/-- A file that is accepted is read as the same tree when one declaration per line is no longer
asked for. -/
theorem ofTokens_lax {file : InterfaceFile} (h : ofTokens ⟨true⟩ size tokens = .ok file) :
    ofTokens ⟨false⟩ size tokens = .ok file := by
  have hlax : errors ⟨false⟩ size tokens = [] := by
    rw [errors_lax, exists_ofTokens_iff.mp ⟨file, h⟩, List.filter_nil]
  obtain ⟨file', h'⟩ := exists_ofTokens_iff.mpr hlax
  have hsame : Except.ok file'.items = .ok file.items :=
    (outcome_of_ofTokens h').symm.trans
      ((reading_view .ofStrictness rfl size tokens).1.trans (outcome_of_ofTokens h))
  cases file
  cases file'
  cases hsame
  exact h'

end InterfaceFile

end BindingIdl

/-! ### Crowded members -/

namespace BindingIdl.Grammar

variable {settings : GrammarSettings} {owner : String} {n n' m : NodeId} {ts us : List Token}
  {ds es : List Diagnostic}

theorem reportUnless_of {holds : Bool} (h : holds = true) (d : Diagnostic) :
    reportUnless holds d = [] := by
  rw [reportUnless, if_pos h]

/-- A member by the rules is one without them, and owes no report. -/
theorem IsMember.isLoose {read : ReadMember} (h : IsMember owner n ts read n') :
    IsLooseMember owner n ts read [] n' := by
  cases h with
  | constructor hname howner hparams hsemi => exact .constructor hname howner hparams hsemi
  | method htype hname hlower hparams hconst hsemi =>
    have hloose : IsLooseMember owner _ _ _ _ _ := .method htype hname hparams hconst hsemi
    rwa [reportUnless_of hlower] at hloose
  | staticMethod hmark htype hname hletter hparams hsemi =>
    have hloose : IsLooseMember owner _ _ _ _ _ :=
      .staticMethod hmark htype hname hparams .absent hsemi
    rw [reportUnless_of hletter] at hloose
    simpa using hloose

theorem IsMembers.isLoose {members : List ReadMember} (h : IsMembers owner n ts members n') :
    IsLooseMembers owner n ts members [] n' := by
  induction h with
  | nil => exact .nil
  | cons hmember _ ih => exact .cons hmember.isLoose ih

/-- The reports that settings ask for are about crowded members. -/
theorem crowdingReports_isCrowding {opening closing : Token} {members : List ReadMember}
    {d : Diagnostic} (h : d ∈ crowdingReports settings owner opening closing members) :
    d.cause.isCrowding = true := by
  rw [crowdingReports] at h
  split at h
  · obtain ⟨pair, -, rfl⟩ := List.mem_map.mp h
    rfl
  · cases h

/-- Under any settings a class owes no other reports than those on crowded members. -/
theorem IsClass.isLoose (settings : GrammarSettings) {decl : ClassDecl}
    (h : IsClass ⟨false⟩ n ts decl n') :
    ∃ is us override ds, ts = is ++ us ∧ IsOverride is override ∧
      IsLooseItem settings n us .definition ds n' ∧ ∀ d ∈ ds, d.cause.isCrowding = true := by
  cases h with
  | @mk _ is ts keyword name opening closing semi override members hoverride hkeyword hname hupper
      hopening hmembers hclosing hsemi =>
    have hloose : IsLooseClass settings _ _ _ _ :=
      .mk hkeyword hname hopening hmembers.isLoose hclosing hsemi
    rw [reportUnless_of hupper, List.nil_append, List.nil_append] at hloose
    exact ⟨is, _, override, _, by simp, hoverride, .definition hloose,
      fun d => crowdingReports_isCrowding⟩

theorem IsForward.isLoose (settings : GrammarSettings) {decl : ForwardDecl}
    (h : IsForward n ts decl n') : IsLooseItem settings n ts .forward [] n' := by
  cases h with
  | mk hkeyword hname hupper hsemi =>
    have hloose : IsLooseItem settings n _ _ _ _ := .forward hkeyword hname hsemi
    rwa [reportUnless_of hupper] at hloose

theorem IsNamespaceName.isLoose {ns : List Token} {name : Option String}
    (h : IsNamespaceName ns name) : IsLooseNamespaceName ns [] := by
  cases h with
  | absent => exact .absent
  | present ht hlower =>
    have hloose := IsLooseNamespaceName.present ht
    rwa [reportUnless_of hlower] at hloose

/-- An item with its override in front is an include line and an item. -/
theorem IsLooseItems.cons_override {is vs : List Token} {override : Option IncludeOverride}
    {shape : ItemShape} {shapes : List ItemShape} (hoverride : IsOverride is override)
    (hitem : IsLooseItem settings n us shape ds n') (htakes : shape.takesOverride = true)
    (hitems : IsLooseItems settings n' vs shapes es m) :
    ∃ shapes, IsLooseItems settings n (is ++ us ++ vs) shapes (ds ++ es) m := by
  cases hoverride with
  | absent => exact ⟨_, .cons hitem hitems⟩
  | @present line hline =>
    have hloose := IsLooseItems.includeLine hline (.cons hitem hitems)
    have hnone : danglingReports [line] (shape :: shapes) = [] := if_pos htakes
    rw [hnone] at hloose
    exact ⟨_, hloose⟩

/-- What is derived where crowded members are let pass is loosely derived under any settings, and
owes nothing but reports of those members. -/
theorem IsItems.isLoose (settings : GrammarSettings) {items : List Item}
    (h : IsItems ⟨false⟩ n ts items n') :
    ∃ shapes ds, IsLooseItems settings n ts shapes ds n' ∧
      ∀ d ∈ ds, d.cause.isCrowding = true := by
  induction items using Item.induction generalizing n n' ts with
  | nil =>
    cases h with
    | nil => exact ⟨[], [], .nil, nofun⟩
  | space head items rest ih ihrest =>
    cases h with
    | cons hitem hitems =>
      obtain ⟨_, es, hrest, hes⟩ := ihrest hitems
      cases hitem with
      | space hoverride hkeyword hname hopening hinside hclosing =>
        obtain ⟨_, ds, hinside, hds⟩ := ih hinside
        obtain ⟨shapes, hloose⟩ := IsLooseItems.cons_override hoverride
          (.space hkeyword hname.isLoose hopening hinside hclosing) rfl hrest
        refine ⟨shapes, ds ++ es, ?_, List.forall_mem_append.mpr ⟨hds, hes⟩⟩
        simpa using hloose
  | definition decl rest ih =>
    cases h with
    | cons hitem hitems =>
      obtain ⟨_, es, hrest, hes⟩ := ih hitems
      cases hitem with
      | definition hclass =>
        obtain ⟨is, us, override, ds, rfl, hoverride, hitem, hds⟩ := hclass.isLoose settings
        obtain ⟨shapes, hloose⟩ := IsLooseItems.cons_override hoverride hitem rfl hrest
        exact ⟨shapes, ds ++ es, hloose, List.forall_mem_append.mpr ⟨hds, hes⟩⟩
  | forward decl rest ih =>
    cases h with
    | cons hitem hitems =>
      obtain ⟨_, es, hrest, hes⟩ := ih hitems
      cases hitem with
      | forward hforward => exact ⟨_, es, .cons (hforward.isLoose settings) hrest, hes⟩

end BindingIdl.Grammar

namespace BindingIdl

/-- A file that is accepted with crowded members is otherwise refused for the crowded pairs, once
for each. -/
theorem InterfaceFile.errors_of_lax (settings : GrammarSettings) {size : Nat} {tokens : List Token}
    {file : InterfaceFile} (h : ofTokens ⟨false⟩ size tokens = .ok file) :
    ∃ ds, Grammar.IsLooseFile settings (tokens.takeWhile (·.kind ≠ .endOfFile)) ds ∧
      (∀ d ∈ ds, d.cause.isCrowding = true) ∧ (errors settings size tokens).Perm ds := by
  obtain ⟨n, hitems⟩ := Grammar.isFile_of_ofTokens h
  obtain ⟨shapes, ds, hloose, hds⟩ := hitems.isLoose settings
  have hfile : Grammar.IsLooseFile settings _ ds := ⟨shapes, n, hloose⟩
  exact ⟨ds, hfile, hds, errors_perm hfile⟩

/-! ## Ambiguous constructors -/

/-- A constructor that cannot be told from an earlier one: the cause that settings decide on. -/
def Cause.isAmbiguity : Cause → Bool
  | .ambiguousConstructor .. => true
  | _ => false

/-- The strict result is the lax one, or it is a refusal that only the strict settings ask for. -/
def Stricter {α : Type} (strict lax : Except Diagnostic α) : Prop :=
  lax = strict ∨ ∃ d, strict = .error d ∧ d.cause.isAmbiguity = true

namespace Stricter

variable {α β : Type} {strict lax : Except Diagnostic α}

theorem refl (x : Except Diagnostic α) : Stricter x x := .inl rfl

theorem bind {f g : α → Except Diagnostic β} (h : Stricter strict lax)
    (hfg : ∀ a, Stricter (f a) (g a)) : Stricter (strict >>= f) (lax >>= g) := by
  obtain rfl | ⟨d, rfl, hd⟩ := h
  · cases lax with
    | ok a => exact hfg a
    | error d => exact .inl rfl
  · exact .inr ⟨d, rfl, hd⟩

theorem ok {a : α} (h : Stricter strict lax) (hstrict : strict = .ok a) : lax = .ok a := by
  obtain rfl | ⟨d, rfl, -⟩ := h
  · exact hstrict
  · cases hstrict

/-- Where strict settings fail for another cause than ambiguity, lax ones fail in the same way. -/
theorem error {d : Diagnostic} (h : Stricter strict lax) (hstrict : strict = .error d)
    (hd : d.cause.isAmbiguity = false) : lax = .error d := by
  obtain rfl | ⟨e, rfl, he⟩ := h
  · exact hstrict
  · cases hstrict
    rw [hd] at he
    cases he

end Stricter

/-- The same constructors clash, and others only for ambiguity. -/
theorem PlacedConstructor.clash?_lax (owner : String) (earlier : List PlacedConstructor)
    (this : PlacedConstructor) :
    this.clash? ⟨false⟩ owner earlier = this.clash? ⟨true⟩ owner earlier ∨
      ∃ d, this.clash? ⟨true⟩ owner earlier = some d ∧ d.cause.isAmbiguity = true := by
  unfold clash?
  cases earlier.find? (·.decl.exactKey = this.decl.exactKey) with
  | some first => exact .inl rfl
  | none =>
    cases h : earlier.find? (·.decl.key = this.decl.key) with
    | none => exact .inl rfl
    | some first => exact .inr ⟨_, rfl, rfl⟩

variable {table : SymbolTable}

/-- The settings are looked at where constructors clash, and nowhere else. -/
theorem Member.stricter_classifyAll (owner : String) (earlier : List PlacedConstructor)
    (decls : List MemberDecl) :
    Stricter (Member.classifyAll table ⟨true⟩ owner earlier decls)
      (Member.classifyAll table ⟨false⟩ owner earlier decls) := by
  induction decls generalizing earlier with
  | nil => exact .refl _
  | cons decl rest ih =>
    cases decl with
    | method decl =>
      refine (Stricter.refl _).bind fun args => (Stricter.refl _).bind fun returns => ?_
      exact (ih earlier).bind fun members => .refl _
    | constructor decl =>
      refine (Stricter.refl _).bind fun args => ?_
      dsimp only
      obtain hsame | ⟨d, hclash, hd⟩ :=
        PlacedConstructor.clash?_lax owner earlier ⟨⟨args⟩, decl.span⟩
      · rw [hsame]
        split
        · exact .refl _
        · exact (ih _).bind fun members => .refl _
      · rw [hclash]
        exact .inr ⟨d, rfl, hd⟩

theorem Class.stricter_ofDecl (scope : List String) (inherited : Option String) (decl : ClassDecl) :
    Stricter (Class.ofDecl table ⟨true⟩ scope inherited decl)
      (Class.ofDecl table ⟨false⟩ scope inherited decl) := by
  unfold Class.ofDecl
  split
  · exact .refl _
  · exact (Member.stricter_classifyAll decl.name [] decl.members).bind fun members => .refl _

theorem Item.stricter_classifyAll (scope : List String) (inherited : Option String)
    (items : List Item) :
    Stricter (Item.classifyAll table ⟨true⟩ scope inherited items)
      (Item.classifyAll table ⟨false⟩ scope inherited items) := by
  induction items using Item.induction generalizing scope inherited with
  | nil => exact .refl _
  | space head items rest ih ihrest =>
    have hinside := ih (scope ++ head.name.toList) (head.override.map (·.path) <|> inherited)
    refine (hinside.bind fun inside => .refl _).bind fun this => ?_
    exact (ihrest scope inherited).bind fun others => .refl _
  | definition decl rest ih =>
    refine ((Class.stricter_ofDecl scope inherited decl).bind fun c => .refl _).bind fun this => ?_
    exact (ih scope inherited).bind fun others => .refl _
  | forward decl rest ih =>
    exact (Stricter.refl _).bind fun this => (ih scope inherited).bind fun others => .refl _

/-- The whole check, with the part of the settings that it looks at. -/
theorem Module.stricter_ofFile (table : SymbolTable) (file : InterfaceFile) :
    Stricter (Module.ofFile ⟨true⟩ table file) (Module.ofFile ⟨false⟩ table file) :=
  Item.stricter_classifyAll [] none _

/-! ## Settings -/

/-- Settings that come from others by turning some of them off. -/
structure Settings.Laxer (lax strict : Settings) : Prop where
  grammar : lax.grammar.oneDeclarationPerLine = true → strict.grammar.oneDeclarationPerLine = true
  check : lax.check.rejectAmbiguousConstructors = true →
    strict.check.rejectAmbiguousConstructors = true

/-- What is read under settings is read under laxer ones, as the same file. -/
theorem InterfaceFile.ofText_lax {lax strict : GrammarSettings}
    (h : lax.oneDeclarationPerLine = true → strict.oneDeclarationPerLine = true) {text : String}
    {file : InterfaceFile} (hfile : ofText strict text = .ok file) :
    ofText lax text = .ok file := by
  obtain ⟨lax⟩ := lax
  obtain ⟨strict⟩ := strict
  rw [ofText, Except.bind_eq_ok_iff] at hfile ⊢
  obtain ⟨tokens, htokens, hfile⟩ := hfile
  refine ⟨tokens, htokens, ?_⟩
  cases lax with
  | false =>
    cases strict with
    | false => exact hfile
    | true => exact ofTokens_lax hfile
  | true =>
    obtain rfl : strict = true := h rfl
    exact hfile

/-- What is modelled of a file under settings is modelled under laxer ones, as the same module. -/
theorem InterfaceFile.module_lax {lax strict : CheckSettings}
    (h : lax.rejectAmbiguousConstructors = true → strict.rejectAmbiguousConstructors = true)
    {file : InterfaceFile} {m : Module} (hm : file.module strict = .ok m) :
    file.module lax = .ok m := by
  obtain ⟨lax⟩ := lax
  obtain ⟨strict⟩ := strict
  rw [module, Except.bind_eq_ok_iff] at hm ⊢
  obtain ⟨table, htable, hm⟩ := hm
  refine ⟨table, htable, ?_⟩
  cases lax with
  | false =>
    cases strict with
    | false => exact hm
    | true => exact (Module.stricter_ofFile table file).ok hm
  | true =>
    obtain rfl : strict = true := h rfl
    exact hm

/-- A module that is accepted stays the same when settings are turned off. -/
theorem Module.ofText_lax {lax strict : Settings} (h : lax.Laxer strict) {text : String}
    {m : Module} (hm : Module.ofText strict text = .ok m) : Module.ofText lax text = .ok m := by
  obtain ⟨file, hfile, hmodule⟩ := ofText_eq_ok_iff.mp hm
  exact ofText_eq_ok_iff.mpr ⟨file, InterfaceFile.ofText_lax h.grammar hfile,
    InterfaceFile.module_lax h.check hmodule⟩

/-- Settings only take acceptances away. One declaration per line adds reports of crowded members to
those that there are anyway, one for each crowded pair where there are none, and no other tree is
read; refusing ambiguous constructors adds a refusal of these only. So what is accepted stays as it
is when settings are turned off. -/
theorem Settings.strictness_only_refuses :
    (∀ size tokens, InterfaceFile.errors ⟨false⟩ size tokens =
      (InterfaceFile.errors ⟨true⟩ size tokens).filter (!·.cause.isCrowding)) ∧
    (∀ size tokens strict lax, InterfaceFile.ofTokens ⟨true⟩ size tokens = .ok strict →
      InterfaceFile.ofTokens ⟨false⟩ size tokens = .ok lax → strict = lax) ∧
    (∀ size tokens file, InterfaceFile.ofTokens ⟨false⟩ size tokens = .ok file →
      ∃ ds, Grammar.IsLooseFile ⟨true⟩ (tokens.takeWhile (·.kind ≠ .endOfFile)) ds ∧
        (∀ d ∈ ds, d.cause.isCrowding = true) ∧
        (InterfaceFile.errors ⟨true⟩ size tokens).Perm ds) ∧
    (∀ table file m, Module.ofFile ⟨true⟩ table file = .ok m →
      Module.ofFile ⟨false⟩ table file = .ok m) ∧
    (∀ table file d, Module.ofFile ⟨true⟩ table file = .error d → d.cause.isAmbiguity = false →
      Module.ofFile ⟨false⟩ table file = .error d) ∧
    (∀ (strict lax : Settings) text m, lax.Laxer strict → Module.ofText strict text = .ok m →
      Module.ofText lax text = .ok m) := by
  refine ⟨InterfaceFile.errors_lax, ?_, ?_, ?_, ?_, ?_⟩
  · intro size tokens strict lax hstrict hlax
    rw [InterfaceFile.ofTokens_lax hstrict] at hlax
    exact Except.ok.inj hlax
  · exact fun size tokens file h => InterfaceFile.errors_of_lax ⟨true⟩ h
  · exact fun table file m h => (Module.stricter_ofFile table file).ok h
  · exact fun table file d h hd => (Module.stricter_ofFile table file).error h hd
  · exact fun strict lax text m h hm => Module.ofText_lax h hm

/-- A class with its two members on one line. -/
def crowdedClass : List Token :=
  [⟨.classKeyword, "class", ⟨0, 5, 1⟩⟩, ⟨.identifier, "A", ⟨6, 7, 1⟩⟩,
    ⟨.openBrace, "\x7b", ⟨8, 9, 1⟩⟩,
    ⟨.identifier, "A", ⟨10, 11, 2⟩⟩, ⟨.openParen, "(", ⟨11, 12, 2⟩⟩,
    ⟨.closeParen, ")", ⟨12, 13, 2⟩⟩, ⟨.semicolon, ";", ⟨13, 14, 2⟩⟩,
    ⟨.identifier, "void", ⟨15, 19, 2⟩⟩, ⟨.identifier, "f", ⟨20, 21, 2⟩⟩,
    ⟨.openParen, "(", ⟨21, 22, 2⟩⟩, ⟨.closeParen, ")", ⟨22, 23, 2⟩⟩,
    ⟨.semicolon, ";", ⟨23, 24, 2⟩⟩,
    ⟨.closeBrace, "\x7d", ⟨25, 26, 3⟩⟩, ⟨.semicolon, ";", ⟨26, 27, 3⟩⟩,
    ⟨.endOfFile, "", ⟨27, 27, 3⟩⟩]

/-- Two constructors that take one `P` each, as far as first letters go. -/
def alikeText : String :=
  "class Point \x7b\n\x7d;\nclass Pose \x7b\n\x7d;\n" ++
    "class P \x7b\nP(const Point& a);\nP(const Pose& b);\n\x7d;\n"

/-- A constructor with a reference that is not constant. -/
def faultyText : String := "class A \x7b\nA(A& a);\n\x7d;\n"

/-- A class that no setting objects to. -/
def plainText : String := "class A \x7b\nA();\nA(double x);\nvoid f(const A& a) const;\n\x7d;\n"

/-- What can be seen by running a text through resolution. -/
theorem SymbolTable.exists_of_run {α : Type} (text : String)
    (ask : SymbolTable → InterfaceFile → α) (answer : α)
    (h : (InterfaceFile.ofText default text).toOption.bind (fun file =>
      (SymbolTable.ofFile file).toOption.map (ask · file)) = some answer) :
    ∃ file table, InterfaceFile.ofText default text = .ok file ∧
      SymbolTable.ofFile file = .ok table ∧ ask table file = answer := by
  obtain ⟨file, hfile, h⟩ := Option.bind_eq_some_iff.mp h
  obtain ⟨table, htable, h⟩ := Option.map_eq_some_iff.mp h
  exact ⟨file, table, Except.eq_ok_of_toOption hfile, Except.eq_ok_of_toOption htable, h⟩

/-- The crowded class is refused for its one crowded pair, and the constructors that are alike for
being so, each only where a setting asks for it; another fault is refused either way; and where
nothing is refused, settings may be turned off one by one. -/
theorem Settings.strictness_sampled :
    ((∃ file, InterfaceFile.ofTokens ⟨false⟩ 27 crowdedClass = .ok file) ∧
      InterfaceFile.errors ⟨true⟩ 27 crowdedClass = [⟨.crowdedLine "A", 2, ⟨15, 9⟩⟩] ∧
      Grammar.IsLooseFile ⟨true⟩ (crowdedClass.takeWhile (·.kind ≠ .endOfFile))
        [⟨.crowdedLine "A", 2, ⟨15, 9⟩⟩]) ∧
    (∃ file table m, InterfaceFile.ofText default alikeText = .ok file ∧
      SymbolTable.ofFile file = .ok table ∧
      Module.ofFile ⟨true⟩ table file =
        .error ⟨.ambiguousConstructor "P" "1:P" ⟨43, 18⟩, 7, ⟨62, 17⟩⟩ ∧
      Module.ofFile ⟨false⟩ table file = .ok m) ∧
    (∃ file table d, InterfaceFile.ofText default faultyText = .ok file ∧
      SymbolTable.ofFile file = .ok table ∧ d.cause.isAmbiguity = false ∧
      Module.ofFile ⟨true⟩ table file = .error d ∧
      Module.ofFile ⟨false⟩ table file = .error d) ∧
    (∃ file table m, InterfaceFile.ofText default plainText = .ok file ∧
      SymbolTable.ofFile file = .ok table ∧ Module.ofFile ⟨true⟩ table file = .ok m ∧
      Module.ofFile ⟨false⟩ table file = .ok m) ∧
    (∃ m, Module.ofText ⟨⟨true⟩, ⟨true⟩⟩ plainText = .ok m ∧
      Settings.Laxer ⟨⟨false⟩, ⟨true⟩⟩ ⟨⟨true⟩, ⟨true⟩⟩ ∧
      Module.ofText ⟨⟨false⟩, ⟨true⟩⟩ plainText = .ok m ∧
      Settings.Laxer ⟨⟨true⟩, ⟨false⟩⟩ ⟨⟨true⟩, ⟨true⟩⟩ ∧
      Module.ofText ⟨⟨true⟩, ⟨false⟩⟩ plainText = .ok m) := by
  obtain ⟨-, -, hpairs, haccepted, hrefused, hlaxer⟩ := Settings.strictness_only_refuses
  refine ⟨?_, ?_, ?_, ?_, ?_⟩
  · have hlax : InterfaceFile.errors ⟨false⟩ 27 crowdedClass = [] := by decide +kernel
    have hstrict : InterfaceFile.errors ⟨true⟩ 27 crowdedClass =
        [⟨.crowdedLine "A", 2, ⟨15, 9⟩⟩] := by
      decide +kernel
    obtain ⟨file, hfile⟩ := InterfaceFile.exists_ofTokens_iff.mpr hlax
    obtain ⟨ds, hloose, -, hperm⟩ := hpairs 27 crowdedClass file hfile
    rw [hstrict, List.singleton_perm] at hperm
    rw [← hperm] at hloose
    exact ⟨⟨file, hfile⟩, hstrict, hloose⟩
  · -- only the strict check refuses, and for ambiguity
    obtain ⟨file, table, hfile, htable, hasked⟩ := SymbolTable.exists_of_run alikeText
      (fun table file =>
        (Module.ofFile ⟨true⟩ table file, (Module.ofFile ⟨false⟩ table file).toOption.isSome))
      (.error ⟨.ambiguousConstructor "P" "1:P" ⟨43, 18⟩, 7, ⟨62, 17⟩⟩, true) (by decide +kernel)
    obtain ⟨hstrict, hlax⟩ := Prod.mk.inj hasked
    obtain ⟨m, hm⟩ := Option.isSome_iff_exists.mp hlax
    exact ⟨file, table, m, hfile, htable, hstrict, Except.eq_ok_of_toOption hm⟩
  · -- a fault that is no ambiguity stays under the lax check
    obtain ⟨file, table, hfile, htable, hstrict⟩ := SymbolTable.exists_of_run faultyText
      (fun table file => Module.ofFile ⟨true⟩ table file)
      (.error ⟨.invalidWrapping "A&" "A::A(A& a)" .mutableReference, 2, ⟨12, 2⟩⟩)
      (by decide +kernel)
    exact ⟨file, table, _, hfile, htable, rfl, hstrict, hrefused table file _ hstrict rfl⟩
  · obtain ⟨file, table, hfile, htable, hsome⟩ := SymbolTable.exists_of_run plainText
      (fun table file => (Module.ofFile ⟨true⟩ table file).toOption.isSome) true
      (by decide +kernel)
    obtain ⟨m, hm⟩ := Option.isSome_iff_exists.mp hsome
    have hstrict := Except.eq_ok_of_toOption hm
    exact ⟨file, table, m, hfile, htable, hstrict, haccepted table file m hstrict⟩
  · have hsome : (Module.ofText ⟨⟨true⟩, ⟨true⟩⟩ plainText).toOption.isSome = true := by
      decide +kernel
    obtain ⟨m, hm⟩ := Option.isSome_iff_exists.mp hsome
    have hstrict := Except.eq_ok_of_toOption hm
    have hcrowding : Settings.Laxer ⟨⟨false⟩, ⟨true⟩⟩ ⟨⟨true⟩, ⟨true⟩⟩ := ⟨nofun, fun _ => rfl⟩
    have hambiguity : Settings.Laxer ⟨⟨true⟩, ⟨false⟩⟩ ⟨⟨true⟩, ⟨true⟩⟩ := ⟨fun _ => rfl, nofun⟩
    exact ⟨m, hstrict, hcrowding, hlaxer _ _ _ m hcrowding hstrict, hambiguity,
      hlaxer _ _ _ m hambiguity hstrict⟩

end BindingIdl
