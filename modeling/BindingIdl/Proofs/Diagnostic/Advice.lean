import BindingIdl.Proofs.Compilation.Stages
import BindingIdl.Proofs.Grammar.Nesting
import BindingIdl.Proofs.Module.Handover
import BindingIdl.Proofs.Module.RootStub

/-!
# Advice that is followed

Whoever names a class that means nothing is told to declare it, or to add a forward declaration on a
line of its own. `Module.advice_followed` is what becomes of a text to which that line is added.

Resolution stops at the first type whose name means nothing (`SymbolTable.ofFile_eq_error_iff`).
The types before it mean with the new declaration what they meant without, and the name that was
missing now means something, so if resolution stops again, it does so at a type behind. That this
is further on in the text as well comes from the grammar, which reads types in order
(`InterfaceFile.types_ascend`).

The advice does not look at the name it is given for. It cannot be followed where the name is not
one that a class may have, and it does not help a qualified name where the file defines a class of
that name at the root, because a class that is defined is not trusted for another path. And a type
that means something may still be one that no signature can have. `Module.advice_unheeded` has a
text for each of these.
-/

namespace BindingIdl

open Declaration

/-! ## The type that resolution stops at -/

/-- The first type in the file that means nothing. -/
def InterfaceFile.FirstUnknown (file : InterfaceFile) (o : Occurrence) : Prop :=
  ∃ before after, Occurrence.ofDefinitions file.definitions = before ++ o :: after ∧
    (∀ b ∈ before, file.Explains b) ∧ ¬ file.Explains o

/-- Only one element of a list is the first without a property. -/
theorem eq_of_first {α : Type} {P : α → Prop} {before before' after after' : List α} {a a' : α}
    (h : before ++ a :: after = before' ++ a' :: after') (hbefore : ∀ b ∈ before, P b)
    (ha : ¬ P a) (hbefore' : ∀ b ∈ before', P b) (ha' : ¬ P a') : a = a' := by
  -- if one list has more before its element than the other, the other's element is among that
  rcases List.append_eq_append_iff.mp h with ⟨more, rfl, hrest⟩ | ⟨more, rfl, hrest⟩
  · cases more with
    | nil => exact (List.cons.inj hrest).1
    | cons b more =>
      obtain rfl := (List.cons.inj hrest).1
      exact absurd (hbefore' a (by simp)) ha
  · cases more with
    | nil => exact (List.cons.inj hrest).1.symm
    | cons b more =>
      obtain rfl := (List.cons.inj hrest).1
      exact absurd (hbefore a' (by simp)) ha'

namespace InterfaceFile.FirstUnknown

variable {file : InterfaceFile} {o o' : Occurrence}

/-- The first unknown type is one in a signature of the file. -/
theorem mem (h : file.FirstUnknown o) : o ∈ Occurrence.ofDefinitions file.definitions := by
  obtain ⟨before, after, hos, -⟩ := h
  simp [hos]

theorem unknown (h : file.FirstUnknown o) : ¬ file.Explains o := by
  obtain ⟨-, -, -, -, ho⟩ := h
  exact ho

/-- There is one first unknown type at most. -/
theorem unique (h : file.FirstUnknown o) (h' : file.FirstUnknown o') : o = o' := by
  obtain ⟨before, after, hos, hbefore, ho⟩ := h
  obtain ⟨before', after', hos', hbefore', ho'⟩ := h'
  exact eq_of_first (hos.symm.trans hos') hbefore ho hbefore' ho'

end InterfaceFile.FirstUnknown

namespace SymbolTable

variable {file : InterfaceFile} {e : Diagnostic}

/-- Where a file resolves, all its types mean something. -/
theorem explains_of_ofFile (hfile : file.Wellnamed) {table : SymbolTable}
    (h : ofFile file = .ok table) :
    ∀ o ∈ Occurrence.ofDefinitions file.definitions, file.Explains o := by
  obtain ⟨-, base, hrecords, -, hrun⟩ | ⟨-, d, -, earlier, herror⟩ := ofFile_cases file
  · have hfound := found_of_foldlM (.refl _) _ (hrun.symm.trans h)
    exact fun o ho => (hrecords.found_iff_explains hfile o ho).mp (hfound o ho)
  · rw [herror] at h
    cases h

/-- Resolution stops at the first type without a meaning, and complains about that one. -/
theorem firstUnknown_of_ofFile (hfile : file.Wellnamed) (hdistinct : Distinct file.declarations)
    (h : ofFile file = .error e) : ∃ o, file.FirstUnknown o ∧ e = o.complaint := by
  obtain ⟨-, base, hrecords, -, hrun⟩ | ⟨hrepeated, -⟩ := ofFile_cases file
  · have hfound := hrecords.found_iff_explains hfile
    obtain ⟨before, o, after, hos, hbefore, ho, he⟩ :=
      first_of_foldlM (.refl _) _ (hrun.symm.trans h)
    rw [hos] at hfound
    refine ⟨o, ⟨before, after, hos, fun b hb => ?_, fun hexplains => ?_⟩, he⟩
    · exact (hfound b (List.mem_append_left _ hb)).mp (hbefore b hb)
    · exact ho ((hfound o (by simp)).mpr hexplains)
  · exact absurd hdistinct hrepeated

/-- Where no class is defined twice, resolution fails at the first type that means nothing. -/
theorem ofFile_eq_error_iff (hfile : file.Wellnamed) (hdistinct : Distinct file.declarations) :
    ofFile file = .error e ↔ ∃ o, file.FirstUnknown o ∧ e = o.complaint := by
  constructor
  · exact firstUnknown_of_ofFile hfile hdistinct
  · rintro ⟨o, ho, rfl⟩
    cases hrun : ofFile file with
    | ok table => exact absurd (explains_of_ofFile hfile hrun o ho.mem) ho.unknown
    | error e =>
      obtain ⟨o', ho', rfl⟩ := firstUnknown_of_ofFile hfile hdistinct hrun
      rw [ho.unique ho']

/-- Where a type is unknown, all declarations have been collected, so none was a duplicate. -/
theorem distinct_of_unresolved (h : ofFile file = .error e) (hkind : e.kind = .unresolvedType) :
    Distinct file.declarations := by
  obtain ⟨hdistinct, -⟩ | ⟨-, d, -, earlier, herror⟩ := ofFile_cases file
  · exact hdistinct
  · rw [herror] at h
    cases h
    cases hkind

end SymbolTable

/-! ## Where it stands -/

/-- The types of a text are read in the order in which they are written. -/
theorem InterfaceFile.types_ascend {settings : GrammarSettings} {text : String}
    {file : InterfaceFile} (h : ofText settings text = .ok file) :
    file.types.Pairwise fun a b => a.span.start < b.span.start := by
  obtain ⟨ts, -, hrow, hitems⟩ := scan_of_ofText h
  obtain ⟨hjoins, hstrung⟩ := Grammar.IsFile.strung_types ⟨_, hitems⟩ hrow.ordered
  rw [List.pairwise_map] at hstrung
  refine hstrung.imp_of_mem fun ha _ hab => ?_
  exact ((hjoins _ (List.mem_map_of_mem ha)).start_lt_stop hrow.nonempty).trans_le hab

/-! ## What is reported of a text -/

/-- A text that cannot be read is complained about by the scanner or the grammar only. -/
theorem InterfaceFile.kind_of_ofText {settings : GrammarSettings} {text : String}
    {ds : List Diagnostic} (h : ofText settings text = .error ds) :
    ∀ d ∈ ds, d.kind = .lexical ∨ d.kind = .grammar := by
  rw [ofText_eq] at h
  cases htokens : Token.ofText text with
  | error e =>
    rw [htokens] at h
    cases h
    rw [List.forall_mem_singleton]
    refine .inl ?_
    obtain ⟨cause, part, span⟩ := e
    cases cause <;> rfl
  | ok tokens =>
    rw [htokens] at h
    exact fun d hd => .inr ((verdict_of_ofTokens h).kinds d hd)

/-- Without a module, either the text could not be read, or one thing is wrong with what it says. -/
theorem Module.ofText_eq_error {settings : Settings} {text : String} {ds : List Diagnostic}
    (h : ofText settings text = .error ds) :
    InterfaceFile.ofText settings.grammar text = .error ds ∨
    ∃ file, InterfaceFile.ofText settings.grammar text = .ok file ∧
      ∃ d, ds = [d] ∧ file.module settings.check = .error d := by
  rcases Except.bind_eq_error_iff.mp h with h | ⟨file, hfile, h⟩
  · exact .inl h
  · refine .inr ⟨file, hfile, ?_⟩
    cases hmodule : file.module settings.check with
    | ok m => rw [hmodule] at h; cases h
    | error d =>
      rw [hmodule] at h
      cases h
      exact ⟨d, rfl, rfl⟩

/-- A file that is refused is refused by resolution, or for a class that breaks a rule. -/
theorem InterfaceFile.module_eq_error {check : CheckSettings} {file : InterfaceFile}
    {e : Diagnostic} (h : file.module check = .error e) : SymbolTable.ofFile file = .error e ∨
      e.kind = .invalidWrapping ∨ e.kind = .duplicateMember := by
  rcases Except.bind_eq_error_iff.mp h with h | ⟨table, htable, h⟩
  · exact .inl h
  · obtain ⟨d, -, hfaulted⟩ := Module.faulted_of_ofFile htable h
    exact .inr hfaulted.kind

/-- A name that means nothing is reported alone, of a file that can be read. -/
theorem Module.unresolved_of_ofText {settings : Settings} {text : String} {ds : List Diagnostic}
    (h : ofText settings text = .error ds) {d : Diagnostic} (hd : d ∈ ds)
    (hkind : d.kind = .unresolvedType) :
    ∃ file, InterfaceFile.ofText settings.grammar text = .ok file ∧
      SymbolTable.ofFile file = .error d := by
  rcases ofText_eq_error h with h | ⟨file, hfile, d', rfl, hmodule⟩
  · rcases InterfaceFile.kind_of_ofText h d hd with hother | hother <;>
      · rw [hother] at hkind
        cases hkind
  · obtain rfl := List.mem_singleton.mp hd
    refine ⟨file, hfile, ?_⟩
    rcases InterfaceFile.module_eq_error hmodule with hresolve | hother | hother
    · exact hresolve
    all_goals
      rw [hother] at hkind
      cases hkind

/-! ## The line that is added -/

/-- A bare name means something if any stretch of the scope leads to a class. -/
theorem Denotes.exists_of_known {defined forward : List QualifiedName} {scope : List String}
    {name : String} (spaces : List String) (hspaces : spaces <+: scope)
    (hknown : ⟨spaces, name⟩ ∈ defined ∨ ⟨spaces, name⟩ ∈ forward) :
    ∃ path, Denotes defined forward scope (.bare name) path := by
  -- the longest such stretch decides
  by_cases hlonger : ∃ longer, longer <+: scope ∧ spaces.length < longer.length ∧
      (⟨longer, name⟩ ∈ defined ∨ ⟨longer, name⟩ ∈ forward)
  · obtain ⟨longer, hprefix, hlt, hmem⟩ := hlonger
    have := hprefix.length_le
    exact exists_of_known longer hprefix hmem
  · exact ⟨_, .enclosing hspaces hknown fun longer hprefix hlt hmem =>
      hlonger ⟨longer, hprefix, hlt, hmem⟩⟩
termination_by scope.length - spaces.length

namespace InterfaceFile

variable {file : InterfaceFile} {decl : ForwardDecl} {o : Occurrence}

/-- One more forward declaration takes no meaning away. -/
theorem Explains.forwarded (h : file.Explains o) : (file.forwarded decl).Explains o := by
  intro hclass
  obtain ⟨path, hpath⟩ := h hclass
  rw [definedPaths_forwarded, forwardPaths_forwarded]
  exact ⟨path, hpath.forwarded decl.name⟩

/-- The new declaration explains the name it was made for, unless the name is qualified and what is
declared has been defined. -/
theorem explains_of_advice (hname : decl.name = o.type.name.name)
    (hroot : o.type.name.isQualified = true → .bare decl.name ∉ file.definedPaths) :
    (file.forwarded decl).Explains o := by
  intro _
  have hforward : QualifiedName.bare decl.name ∈ (file.forwarded decl).forwardPaths := by
    rw [forwardPaths_forwarded]
    exact List.mem_concat_self
  cases hq : o.type.name.isQualified with
  | true =>
    -- found nowhere, it is trusted for the class that is now declared at the root
    rw [hname] at hforward
    refine ⟨_, .rescued hq hforward ?_⟩
    rw [definedPaths_forwarded, ← hname]
    exact hroot hq
  | false =>
    -- the search ends at the root, where the class is now declared
    rw [o.type.name.eq_bare hq, ← hname]
    exact Denotes.exists_of_known [] List.nil_prefix (.inr hforward)

/-- A qualified name is not trusted for a class that has been defined, so the new declaration does
nothing for it. -/
theorem Explains.of_forwarded (h : (file.forwarded decl).Explains o)
    (hq : o.type.name.isQualified = true) (hname : decl.name = o.type.name.name)
    (hdefined : .bare decl.name ∈ file.definedPaths) : file.Explains o := by
  intro hclass
  obtain ⟨path, hpath⟩ := h hclass
  rw [definedPaths_forwarded, forwardPaths_forwarded] at hpath
  obtain ⟨-, hknown | ⟨-, hundefined⟩⟩ := (Denotes.qualified_iff hq).mp hpath
  · refine ⟨_, .absolute hq (hknown.imp_right fun hmem => ?_)⟩
    rcases List.mem_append.mp hmem with hmem | hnew
    · exact hmem
    · -- what is declared is bare
      rw [List.mem_singleton.mp hnew] at hq
      cases hq
  · rw [hname] at hdefined
    exact absurd hdefined hundefined

/-- A type that still means nothing is still the first of them. -/
theorem FirstUnknown.forwarded (h : file.FirstUnknown o)
    (hstill : ¬ (file.forwarded decl).Explains o) : (file.forwarded decl).FirstUnknown o := by
  obtain ⟨before, after, hos, hbefore, -⟩ := h
  refine ⟨before, after, ?_, fun b hb => (hbefore b hb).forwarded, hstill⟩
  rw [definitions_forwarded, hos]

/-- If resolution stops again, then at a type behind the one for which the advice was given. -/
theorem FirstUnknown.behind {settings : GrammarSettings} {text : String}
    (hfile : ofText settings text = .ok file) (h : file.FirstUnknown o)
    (ho : (file.forwarded decl).Explains o) {o' : Occurrence}
    (h' : (file.forwarded decl).FirstUnknown o') : o.type.span.start < o'.type.span.start := by
  have hmem := h'.mem
  obtain ⟨before, after, hos, hbefore, -⟩ := h
  have hafter : o' ∈ after := by
    rw [definitions_forwarded, hos] at hmem
    rcases List.mem_append.mp hmem with hmem | hmem
    · exact absurd (hbefore o' hmem).forwarded h'.unknown
    · rcases List.mem_cons.mp hmem with rfl | hmem
      · exact absurd ho h'.unknown
      · exact hmem
  have hascend := types_ascend hfile
  rw [← Occurrence.map_type, List.pairwise_map, hos] at hascend
  exact (List.pairwise_cons.mp (List.pairwise_append.mp hascend).2.1).1 o' hafter

end InterfaceFile

namespace Module

/-- The text defines a class of this name outside its named namespaces. -/
def DefinesAtRoot (settings : Settings) (text name : String) : Prop :=
  ∃ file, InterfaceFile.ofText settings.grammar text = .ok file ∧ .bare name ∈ file.definedPaths

/-- Where a class name means nothing, the advice is to declare it on a line of its own. This is for
names that a class may have. If the name is qualified and a class of that name is defined at the
root, the line changes nothing. Otherwise the text can be read, nothing is defined twice, and the
name means something: if the text is not accepted now, it is for a name further on, or for a class
that breaks a rule. -/
theorem advice_followed {settings : Settings} {text : String} {ds : List Diagnostic}
    (h : ofText settings text = .error ds) {d : Diagnostic} (hd : d ∈ ds) {name : QualifiedName}
    {signature : String} {tried : List QualifiedName}
    (hcause : d.cause = .unresolvedType name signature tried)
    (hupper : startsUpper name.name = true) :
    d.cause.help = some ("declare the class in this file, or add `class " ++ name.name
      ++ ";` if it is wrapped elsewhere") ∧
    (name.isQualified = true ∧ DefinesAtRoot settings text name.name →
      ofText settings (text ++ "\n" ++ ("class " ++ name.name ++ ";")) = .error [d]) ∧
    (¬ (name.isQualified = true ∧ DefinesAtRoot settings text name.name) →
      ∀ es, ofText settings (text ++ "\n" ++ ("class " ++ name.name ++ ";")) = .error es →
        ∃ e, es = [e] ∧ (e.kind = .invalidWrapping ∨ e.kind = .duplicateMember ∨
          (e.kind = .unresolvedType ∧ d.extent.offset < e.extent.offset))) := by
  have hkind : d.kind = .unresolvedType := by rw [Diagnostic.kind, hcause]; rfl
  obtain ⟨file, hfile, hresolve⟩ := unresolved_of_ofText h hd hkind
  have hnamed := InterfaceFile.wellnamed_of_allSpelled (InterfaceFile.spelled_of_ofText hfile).1
  have hdistinct := SymbolTable.distinct_of_unresolved hresolve hkind
  obtain ⟨o, ho, rfl⟩ := (SymbolTable.ofFile_eq_error_iff hnamed hdistinct).mp hresolve
  obtain rfl : o.type.name = name := by injection hcause
  have hname : isIdentifier o.type.name.name = true := by
    refine (hnamed.used o.type ?_).name
    rw [← Occurrence.map_type]
    exact List.mem_map_of_mem ho.mem
  obtain ⟨decl, hdecl, hforwarded⟩ := InterfaceFile.exists_forwarded hfile hname hupper
  have hagain {e : Diagnostic} : SymbolTable.ofFile (file.forwarded decl) = .error e ↔
      ∃ o', (file.forwarded decl).FirstUnknown o' ∧ e = o'.complaint :=
    SymbolTable.ofFile_eq_error_iff (hnamed.forwarded (hdecl ▸ hname))
      (InterfaceFile.distinct_forwarded hdistinct)
  refine ⟨by rw [hcause]; rfl, ?_, fun hhelps es hes => ?_⟩
  · rintro ⟨hq, file', hfile', hdefined⟩
    obtain rfl : file = file' := Except.ok.inj (hfile.symm.trans hfile')
    -- the class is defined, so the line is merged into its definition and `o` is still unknown
    have hstill : ¬ (file.forwarded decl).Explains o := fun hexplains =>
      ho.unknown (hexplains.of_forwarded hq hdecl (hdecl ▸ hdefined))
    have hresolve' := hagain.mpr ⟨o, ho.forwarded hstill, rfl⟩
    rw [ofText, hforwarded]
    show ((file.forwarded decl).module settings.check).mapError ([·]) = _
    rw [InterfaceFile.module, hresolve']
    rfl
  · rcases ofText_eq_error hes with hes | ⟨file', hfile', e, rfl, hmodule⟩
    · -- the line is read, so nothing of it is reported
      rw [hforwarded] at hes
      cases hes
    · obtain rfl : file.forwarded decl = file' := Except.ok.inj (hforwarded.symm.trans hfile')
      refine ⟨e, rfl, ?_⟩
      rcases InterfaceFile.module_eq_error hmodule with hresolved | hchecked
      · obtain ⟨o', ho', rfl⟩ := hagain.mp hresolved
        have hadvised : (file.forwarded decl).Explains o :=
          InterfaceFile.explains_of_advice hdecl fun hq hdefined =>
            hhelps ⟨hq, file, hfile, hdecl ▸ hdefined⟩
        exact .inr (.inr ⟨rfl, ho.behind hfile hadvised ho'⟩)
      · exact hchecked.imp_right .inl

end Module

/-! ## Texts and their advice -/

namespace Module

/-- All that is reported of a text. -/
def reports (text : String) : List Diagnostic :=
  match ofText default text with
  | .ok _ => []
  | .error ds => ds

theorem ofText_of_reports {text : String} {d : Diagnostic} (h : reports text = [d]) :
    ofText default text = .error [d] := by
  unfold reports at h
  split at h
  · cases h
  · rename_i ds hds
    rw [hds, h]

/-- Here `Bar` is missing as well, and further on than what the advice is about. -/
def twoMissing : String := "class A \x7b\nA(ns::Foo f, Bar b);\n\x7d;"

theorem twoMissing_advised :
    (Cause.unresolvedType ⟨["ns"], "Foo"⟩ "A::A(ns::Foo f, Bar b)" [⟨["ns"], "Foo"⟩]).help =
      some ("declare the class in this file, or add `class " ++ "Foo"
        ++ ";` if it is wrapped elsewhere") ∧
    ∃ e, ofText default (twoMissing ++ "\n" ++ ("class " ++ "Foo" ++ ";")) = .error [e] ∧
      (e.kind = .invalidWrapping ∨ e.kind = .duplicateMember ∨
        (e.kind = .unresolvedType ∧ 12 < e.extent.offset)) := by
  let first : Diagnostic :=
    ⟨.unresolvedType ⟨["ns"], "Foo"⟩ "A::A(ns::Foo f, Bar b)" [⟨["ns"], "Foo"⟩], 2, ⟨12, 7⟩⟩
  have hfirst : reports twoMissing = [first] := by decide +kernel
  have hundefined : (InterfaceFile.ofText default twoMissing).toOption.all (fun file =>
      decide (.bare "Foo" ∉ file.definedPaths)) = true := by
    decide +kernel
  have hagain : reports (twoMissing ++ "\n" ++ ("class " ++ "Foo" ++ ";")) =
      [⟨.unresolvedType (.bare "Bar") "A::A(ns::Foo f, Bar b)" [.bare "Bar"], 2, ⟨23, 3⟩⟩] := by
    decide +kernel
  obtain ⟨hhelp, -, hadvised⟩ := advice_followed (ofText_of_reports hfirst)
    (List.mem_singleton_self _) rfl (by decide)
  have hhelps : ¬ (QualifiedName.isQualified ⟨["ns"], "Foo"⟩ = true ∧
      DefinesAtRoot default twoMissing "Foo") := by
    rintro ⟨-, file, hfile, hdefined⟩
    rw [show InterfaceFile.ofText default twoMissing = .ok file from hfile] at hundefined
    exact of_decide_eq_true hundefined hdefined
  have hrun := ofText_of_reports hagain
  obtain ⟨e, hsame, he⟩ := hadvised hhelps _ hrun
  exact ⟨hhelp, e, hrun.trans (congrArg _ hsame), he⟩

/-- Advice as good as it sounds: with the line added, the text can be read, and nothing is wrong any
more at the place for which the line was added. -/
def AdviceHelps (text : String) : Prop :=
  ∀ d ∈ reports text, ∀ name signature tried, d.cause = .unresolvedType name signature tried →
    ∀ e ∈ reports (text ++ "\n" ++ ("class " ++ name.name ++ ";")),
      e.kind ≠ .lexical ∧ e.kind ≠ .grammar ∧ e.extent.offset ≠ d.extent.offset

/-- No class may be called `foo`. -/
def lowerMissing : String := "class A \x7b\nA(foo x);\n\x7d;"

/-- The class `Foo` is defined, but not in `ns`. -/
def definedElsewhere : String := "class Foo \x7b\n\x7d;\nclass A \x7b\nA(ns::Foo f);\n\x7d;"

/-- Whatever `Foo` is, it cannot be passed like this. -/
def mutableMissing : String := "class A \x7b\nA(Foo& x);\n\x7d;"

/-- At each of the three texts the line is added and the complaint is as before, or worse. -/
theorem advice_unheeded :
    ¬ AdviceHelps lowerMissing ∧ ¬ AdviceHelps definedElsewhere ∧ ¬ AdviceHelps mutableMissing := by
  have hunheeded {text signature : String} {name : QualifiedName} {tried : List QualifiedName}
      {line : Nat} {extent : Extent} {e : Diagnostic}
      (hbefore : reports text = [⟨.unresolvedType name signature tried, line, extent⟩])
      (hbehind : reports (text ++ "\n" ++ ("class " ++ name.name ++ ";")) = [e])
      (hbad : e.kind = .grammar ∨ e.extent.offset = extent.offset) : ¬ AdviceHelps text := by
    intro h
    obtain ⟨-, hgrammar, helsewhere⟩ := h _ (hbefore ▸ List.mem_singleton_self _) name signature
      tried rfl e (hbehind ▸ List.mem_singleton_self _)
    exact hbad.elim hgrammar helsewhere
  have hlower : reports lowerMissing =
      [⟨.unresolvedType (.bare "foo") "A::A(foo x)" [.bare "foo"], 2, ⟨12, 3⟩⟩] := by
    decide +kernel
  have hlower' : reports (lowerMissing ++ "\n" ++ ("class " ++ "foo" ++ ";")) =
      [⟨.className "foo", 4, ⟨29, 3⟩⟩] := by
    decide +kernel
  have hdefined : reports definedElsewhere =
      [⟨.unresolvedType ⟨["ns"], "Foo"⟩ "A::A(ns::Foo f)" [⟨["ns"], "Foo"⟩], 4, ⟨27, 7⟩⟩] := by
    decide +kernel
  have hdefined' : reports (definedElsewhere ++ "\n" ++ ("class " ++ "Foo" ++ ";")) =
      [⟨.unresolvedType ⟨["ns"], "Foo"⟩ "A::A(ns::Foo f)" [⟨["ns"], "Foo"⟩], 4, ⟨27, 7⟩⟩] := by
    decide +kernel
  have hmutable : reports mutableMissing =
      [⟨.unresolvedType (.bare "Foo") "A::A(Foo& x)" [.bare "Foo"], 2, ⟨12, 4⟩⟩] := by
    decide +kernel
  have hmutable' : reports (mutableMissing ++ "\n" ++ ("class " ++ "Foo" ++ ";")) =
      [⟨.invalidWrapping "Foo&" "A::A(Foo& x)" .mutableReference, 2, ⟨12, 4⟩⟩] := by
    decide +kernel
  exact ⟨hunheeded hlower hlower' (.inl rfl), hunheeded hdefined hdefined' (.inr rfl),
    hunheeded hmutable hmutable' (.inr rfl)⟩

end Module

end BindingIdl
