import BindingIdl.Proofs.Grammar.Reports
import BindingIdl.Proofs.Grammar.Spans
import BindingIdl.Proofs.Module.Handover

/-!
# Diagnostics point where they say

Whatever stage of a compilation gives a diagnostic, its places are stretches of the source, its line
is the one on which the first of them starts, and what it says of the text there is so. An earlier
place, where it has one, ends before the other one starts. `Diagnostic.Located` is all of this.

Each stage brings the places from the one before: the scanner makes spans of stretches
(`Scan.Cuts`), a parser complains about tokens (`Cursor.Blames`), and what is derived from tokens is
in their order (`Span.Strung`, `InterfaceFile.LaidOut`), which is all that resolution and
classification need to know of a file.
-/

namespace BindingIdl

/-- The diagnostic is about the text, and right about its places. -/
structure Diagnostic.Located (text : String) (d : Diagnostic) : Prop where
  /-- The line is the one on which the marked text starts. -/
  line : ∃ s : Stretch text, s.span.extent = d.extent ∧ s.line = d.line
  /-- Every mark is on a stretch of the text. -/
  labels : ∀ label ∈ d.labels, ∃ s : Stretch text, s.span.extent = label.2
  /-- A token that was not expected is shown as it is written. -/
  found : ∀ expected found, d.cause = .unexpectedToken expected found →
    ∃ s : Stretch text, s.span.extent = d.extent ∧ found = "`" ++ s.part ++ "`"
  /-- The end of the file is behind all of the text. -/
  atEnd : ∀ expected, d.cause = .unexpectedEnd expected → d.extent = ⟨text.utf8ByteSize, 0⟩
  /-- Of two marked places, the second one ends before the first one starts. -/
  earlier : ∀ label ∈ d.cause.earlier, label.2.offset + label.2.length ≤ d.extent.offset

namespace Diagnostic

variable {text : String} {span : Span} {cause : Cause}

/-- A plain cause has a place and nothing else to say. -/
theorem located_plain (hspan : ∃ s : Stretch text, s.span = span) (hplain : cause.isPlain = true) :
    (about span cause).Located text := by
  obtain ⟨s, rfl⟩ := hspan
  have hearlier : cause.earlier = none := by
    cases cause <;> first | rfl | cases hplain
  refine ⟨⟨s, rfl, rfl⟩, ?_, ?_, ?_, ?_⟩
  · intro label hlabel
    simp only [labels, about, hearlier, Option.toList_none, List.mem_singleton] at hlabel
    exact ⟨s, by rw [hlabel]⟩
  · rintro expected found rfl
    cases hplain
  · rintro expected rfl
    cases hplain
  · simp [about, hearlier]

/-- A diagnostic about two places, of which the earlier one ends before the other starts. -/
theorem located_pair {first : Span} {what : String}
    (hcause : cause.earlier = some (what, first.extent))
    (hspan : ∃ s : Stretch text, s.span = span) (hfirst : ∃ s : Stretch text, s.span = first)
    (hle : first.stop ≤ span.start) : (about span cause).Located text := by
  obtain ⟨s, rfl⟩ := hspan
  obtain ⟨s', rfl⟩ := hfirst
  refine ⟨⟨s, rfl, rfl⟩, ?_, ?_, ?_, ?_⟩
  · intro label hlabel
    simp only [labels, about, hcause, Option.toList_some, List.mem_cons, List.not_mem_nil,
      or_false] at hlabel
    obtain rfl | rfl := hlabel
    · exact ⟨s, rfl⟩
    · exact ⟨s', rfl⟩
  · rintro expected found rfl
    cases hcause
  · rintro expected rfl
    cases hcause
  · rintro label hlabel
    obtain rfl : (what, s'.span.extent) = label := by
      rw [show (about s.span cause).cause = cause from rfl, hcause] at hlabel
      exact Option.some.inj hlabel
    have hle' := s'.start_le_stop
    exact (Nat.add_sub_cancel' hle').trans_le hle

end Diagnostic

/-! ## Scanning -/

/-- What the scanner is stopped by is the fault of the text. -/
theorem Token.fault_of_ofText {text : String} {e : LexicalError} (h : ofText text = .error e) :
    (Scan.ofText text).fault = some e := by
  unfold ofText at h
  dsimp only at h
  split at h
  · rename_i hfault
    cases h
    exact hfault
  · cases h

/-- A fault is reported at the character where it was met. -/
theorem InterfaceFile.located_of_tokensOf {text : String} {d : Diagnostic}
    (h : tokensOf text = .error d) : d.Located text := by
  cases htokens : Token.ofText text with
  | ok ts => rw [tokensOf, htokens] at h; cases h
  | error e =>
    rw [tokensOf, htokens] at h
    cases h
    obtain ⟨s, hspan, -⟩ := (Scan.cuts_ofText text).fault_stretch (Stretch.stands_origin text) e
      (Token.fault_of_ofText htokens)
    refine Diagnostic.located_plain ⟨s, hspan⟩ ?_
    cases e.cause <;> rfl

/-! ## Reading -/

/-- From a token up to a later one, a span starts where the first of them does. -/
theorem Span.cover_of_start_le {s t : Span} (h : s.start ≤ t.start) :
    (s.cover t).start = s.start ∧ (s.cover t).line = s.line :=
  ⟨min_eq_left h, if_pos h⟩

/-- What a parser complains about is in its place, where the tokens are. -/
theorem Cursor.Blames.located {text : String} {b : Cursor} {d : Diagnostic} (h : b.Blames d)
    (hts : Token.Placed text (b.rest ++ [b.stop])) (hopen : ∀ t ∈ b.rest, t.kind ≠ .endOfFile)
    (hstop : b.stop = Token.endOf text) : d.Located text := by
  cases h with
  | @found t expected ht =>
    obtain ⟨s, hspan, hpart⟩ := hts.stretch t (List.mem_append_left _ ht)
    refine ⟨⟨s, congrArg Span.extent hspan, congrArg Span.line hspan⟩, ?_, ?_, nofun, nofun⟩
    · rintro label (_ | ⟨_, ⟨⟩⟩)
      exact ⟨s, congrArg Span.extent hspan⟩
    · rintro expected found ⟨⟩
      exact ⟨s, congrArg Span.extent hspan, by rw [hpart]⟩
  | @atEnd t expected ht =>
    obtain rfl : t = b.stop := ht.resolve_right fun ⟨ht, hend⟩ => hopen t ht hend
    obtain ⟨s, hspan, -⟩ := hts.stretch b.stop (List.mem_append_right _ List.mem_cons_self)
    refine ⟨⟨s, congrArg Span.extent hspan, congrArg Span.line hspan⟩, ?_, nofun, ?_, nofun⟩
    · rintro label (_ | ⟨_, ⟨⟩⟩)
      exact ⟨s, congrArg Span.extent hspan⟩
    · rintro _ ⟨⟩
      rw [hstop]
      exact congrArg₂ Extent.mk (Token.start_endOf text) (Nat.sub_self _)
  | place hjoins hplain =>
    exact Diagnostic.located_plain
      ((hjoins.mono (List.subset_append_left _ _)).exists_stretch hts) hplain
  | @through t u cause hsub hplain =>
    obtain ⟨first, hfirst, -⟩ := hts.stretch t (hsub.subset List.mem_cons_self)
    -- the cover begins with its first token, whose line is quoted
    have hapart : t.span.stop ≤ u.span.start := by
      simpa using hts.ordered.sublist hsub
    have hstart : t.span.start ≤ u.span.start := by
      rw [← hfirst] at hapart ⊢
      exact first.start_le_stop.trans hapart
    have hjoins : (t.span.cover u.span).Joins (b.rest ++ [b.stop]) :=
      ⟨t, hsub.subset (by simp), u, hsub.subset (by simp), rfl⟩
    rw [← (Span.cover_of_start_le hstart).2]
    exact Diagnostic.located_plain (hjoins.exists_stretch hts) hplain

/-- All that a parser complains about is about what was ahead of it. -/
theorem Parser.Keeps.blames_errors {α : Type} {b c : Cursor} {p : Parser α} {Q : α → Cursor → Prop}
    (h : Keeps b p c Q) : ∀ d ∈ (p c).errors, b.Blames d := by
  intro d hd
  obtain hd | hd := List.mem_append.mp hd
  · exact h.reported d hd
  · cases hp : (p c).outcome with
    | ok a => simp [hp] at hd
    | error e =>
      rw [hp] at hd
      obtain rfl := List.mem_singleton.mp hd
      exact h.stopped _ hp

/-- Whatever a file is refused for is about its tokens up to its end. -/
theorem InterfaceFile.blames_of_ofTokens {settings : GrammarSettings} {size : Nat}
    {tokens : List Token} {ds : List Diagnostic} (h : ofTokens settings size tokens = .error ds) :
    ∀ d ∈ ds, (beginning size tokens).upToEnd.Blames d := by
  obtain ⟨items, -, -, hok⟩ | ⟨-, herror⟩ := ofTokens_cases settings size tokens
  · rw [hok] at h
    cases h
  · rw [herror, ← Parsed.errors_upToEnd, ← reading_upToEnd] at h
    cases h
    exact (Parser.keeps_itemsWithin settings false _ (.refl _)).blames_errors

/-- The grammar complains about tokens, which are places in the text. -/
theorem InterfaceFile.located_of_ofTokens {text : String} {ts : List Token}
    (htokens : Token.ofText text = .ok ts) {settings : GrammarSettings} {size : Nat}
    {ds : List Diagnostic} (h : ofTokens settings size ts = .error ds) :
    ∀ d ∈ ds, d.Located text := by
  have hplaced := Token.placed_of_ofText htokens
  obtain ⟨us, hscan, rfl⟩ := Token.ofText_eq_ok_iff.mp htokens
  have hopen : ∀ t ∈ us, t.kind ≠ .endOfFile := fun t ht =>
    Scan.kind_ne_endOfFile (by rw [hscan]; exact ht)
  intro d hd
  have hblames := blames_of_ofTokens h d hd
  rw [beginning_append size hopen rfl] at hblames
  exact hblames.located hplaced hopen rfl

/-! ## Resolving and classifying -/

/-- A file that is read from a text has its parts in their places. -/
theorem InterfaceFile.laidOut_of_ofTokens {text : String} {ts : List Token}
    (htokens : Token.ofText text = .ok ts) {settings : GrammarSettings} {size : Nat}
    {file : InterfaceFile} (h : ofTokens settings size ts = .ok file) :
    ∃ us, Token.Placed text us ∧ file.LaidOut us :=
  have hplaced := (Token.placed_of_ofText htokens).sublist (List.takeWhile_sublist _)
  ⟨_, hplaced, (Grammar.isFile_of_ofTokens h).laidOut hplaced.ordered⟩

section

variable {text : String} {ts : List Token} {file : InterfaceFile} {table : SymbolTable}
  {e : Diagnostic}

/-- A class is defined twice; the earlier definition stands before the later one. -/
theorem SymbolTable.located_of_collect (hts : Token.Placed text ts) (hfile : file.LaidOut ts)
    (h : collect file = .error e) : e.Located text := by
  have hempty : ReflectsAll [] empty := reflects_empty
  obtain ⟨-, base, hbase, -⟩ | ⟨-, before, d, after, hplace, first, hfirst, herror⟩ :=
    collect_cases hempty List.Pairwise.nil file.declarations
  · rw [collect, hbase] at h
    cases h
  · rw [collect, herror] at h
    cases h
    rw [List.nil_append] at hplace
    obtain ⟨hjoins, hordered⟩ := hfile.strung
    rw [List.forall_mem_map] at hjoins
    rw [hplace] at hjoins
    rw [hplace, List.pairwise_map, List.pairwise_append] at hordered
    refine Diagnostic.located_pair rfl ((hjoins d (by simp)).exists_stretch hts)
      ((hjoins first (by simp [hfirst])).exists_stretch hts) ?_
    exact hordered.2.2 first hfirst d List.mem_cons_self

/-- An unknown type is reported where it is written. -/
theorem SymbolTable.located_of_resolveAll (hts : Token.Placed text ts) (hfile : file.LaidOut ts)
    (h : table.resolveAll file = .error e) : e.Located text := by
  rw [resolveAll_eq_foldlM] at h
  obtain ⟨before, o, after, hos, -, -, rfl⟩ := first_of_foldlM (.refl table) _ h
  have hmem : o ∈ Occurrence.ofDefinitions file.definitions := by simp [hos]
  have hjoins : o.type.span.Joins ts :=
    (Occurrence.forall_mem_iff fun _ type => type.span.Joins ts).mpr
      (fun d hd => (hfile.definitions d hd).types) o hmem
  exact Diagnostic.located_plain (hjoins.exists_stretch hts) rfl

/-- The members of one sort are in order, since all members are. -/
theorem MemberDecl.spans_sublist {α : Type} {sort? : MemberDecl → Option α} {place : α → Span}
    (hplace : ∀ m a, sort? m = some a → place a = m.span) (members : List MemberDecl) :
    ((members.filterMap sort?).map place).Sublist (members.map MemberDecl.span) := by
  induction members with
  | nil => exact .slnil
  | cons m members ih =>
    cases hm : sort? m with
    | none => simpa [hm] using ih.cons _
    | some a => simpa [hm, hplace m a hm] using ih.cons_cons (MemberDecl.span m)

/-- A cause that quotes an earlier place does so correctly if the two are in order. -/
theorem Diagnostic.located_of_strung {first again : Span} {cause : Cause} {what : String}
    (hts : Token.Placed text ts) (h : Span.Strung ts [first, again])
    (hcause : cause.earlier = some (what, first.extent)) : (about again cause).Located text :=
  located_pair hcause ((h.joins again (by simp)).exists_stretch hts)
    ((h.joins first (by simp)).exists_stretch hts) (by simpa using h.ordered)

/-- A class that breaks a rule is reported at one of its types, or at two of its members. -/
theorem ClassDecl.Faulted.located {decl : ClassDecl} {settings : CheckSettings}
    (h : decl.Faulted table settings e) (hts : Token.Placed text ts) (hdecl : decl.LaidOut ts) :
    e.Located text := by
  have hmethods {first again : MethodDecl} (hsub : [first, again].Sublist decl.methods) :
      Span.Strung ts [first.span, again.span] := by
    refine hdecl.members.sublist ((hsub.map MethodDecl.span).trans ?_)
    refine MemberDecl.spans_sublist (fun m a hm => ?_) decl.members
    cases m <;> cases hm
    rfl
  have hconstructors {first again : ConstructorDecl}
      (hsub : [first, again].Sublist decl.constructors) :
      Span.Strung ts [first.span, again.span] := by
    refine hdecl.members.sublist ((hsub.map ConstructorDecl.span).trans ?_)
    refine MemberDecl.spans_sublist (fun m a hm => ?_) decl.members
    cases m <;> cases hm
    rfl
  cases h with
  | repeatedMethod hsub => exact Diagnostic.located_of_strung hts (hmethods hsub) rfl
  | repeatedConstructor hsub => exact Diagnostic.located_of_strung hts (hconstructors hsub) rfl
  | ambiguousConstructor _ hsub => exact Diagnostic.located_of_strung hts (hconstructors hsub) rfl
  | @illegalType m position type fault hm huse =>
    have htype : type ∈ decl.types := by
      refine List.mem_flatMap.mpr ⟨m, hm, ?_⟩
      rw [m.types_eq_uses]
      exact List.mem_map_of_mem huse
    exact Diagnostic.located_plain ((hdecl.types type htype).exists_stretch hts) rfl

/-- The check complains about what was declared, and of two like declarations about the later
one. -/
theorem Module.located_of_ofFile {settings : CheckSettings} (hts : Token.Placed text ts)
    (hfile : file.LaidOut ts) (htable : SymbolTable.ofFile file = .ok table)
    (h : ofFile settings table file = .error e) : e.Located text := by
  obtain ⟨d, hd, hfaulted⟩ := faulted_of_ofFile htable h
  exact hfaulted.located hts (hfile.definitions d hd)

end

/-! ## Whole runs -/

namespace Compilation

variable {c : Compilation} {report : Report}

/-- A step that fails does so by its own diagnostics, or further on. -/
theorem step_eq_error {α β : Type} {stage : Stage} {result : Except (List Diagnostic) α}
    {go : Compilation → α → Answer β} (h : (c.step stage result go).1 = .error report) :
    result = .error report.diagnostics ∨
      ∃ a, result = .ok a ∧ (go { c with stage } a).1 = .error report := by
  cases result with
  | ok a => exact .inr ⟨a, rfl, h⟩
  | error ds =>
    cases h
    exact .inl rfl

theorem step_eq_ok {α β : Type} {stage : Stage} {result : Except (List Diagnostic) α}
    {go : Compilation → α → Answer β} {b : β} (h : (c.step stage result go).1 = .ok b) :
    ∃ a, result = .ok a ∧ (go { c with stage } a).1 = .ok b := by
  cases result with
  | ok a => exact ⟨a, rfl, h⟩
  | error ds => cases h

/-- A stage that stops at its first diagnostic. -/
theorem located_of_mapError {α : Type} {text : String} {result : Except Diagnostic α}
    {ds : List Diagnostic} (h : result.mapError ([·]) = .error ds)
    (hresult : ∀ e, result = .error e → e.Located text) : ∀ d ∈ ds, d.Located text := by
  cases result with
  | ok a => cases h
  | error e =>
    cases h
    simpa using hresult e rfl

theorem located_of_parse (h : c.parse.1 = .error report) :
    ∀ d ∈ report.diagnostics, d.Located c.source.text := by
  obtain h | ⟨ts, htokens, h⟩ := step_eq_error h
  · exact located_of_mapError h fun e => InterfaceFile.located_of_tokensOf
  · have htokens := Except.eq_ok_of_mapError (Except.eq_ok_of_mapError htokens)
    obtain h | ⟨file, -, h⟩ := step_eq_error h
    · exact InterfaceFile.located_of_ofTokens htokens h
    · cases h

/-- What parsing answers is laid out in the tokens of the text. -/
theorem laidOut_of_parse {file : InterfaceFile} (h : c.parse.1 = .ok file) :
    ∃ ts, Token.Placed c.source.text ts ∧ file.LaidOut ts := by
  obtain ⟨ts, htokens, h⟩ := step_eq_ok h
  obtain ⟨file', hfile, h⟩ := step_eq_ok h
  cases h
  have htokens := Except.eq_ok_of_mapError (Except.eq_ok_of_mapError htokens)
  exact InterfaceFile.laidOut_of_ofTokens htokens hfile

/-- Whatever a compilation reports is where it says. -/
theorem reports_located (h : c.parse.1 = .error report ∨ c.run.1 = .error report) :
    ∀ d ∈ report.diagnostics, d.Located c.source.text := by
  obtain h | h := h
  · exact located_of_parse h
  unfold run at h
  split at h
  · rename_i hparse
    cases h
    exact located_of_parse (by rw [hparse])
  · rename_i file c' hparse
    obtain ⟨ts, hts, hfile⟩ := @laidOut_of_parse c file (by rw [hparse])
    obtain h | ⟨base, hbase, h⟩ := step_eq_error h
    · exact located_of_mapError h fun e => SymbolTable.located_of_collect hts hfile
    obtain h | ⟨table, htable, h⟩ := step_eq_error h
    · exact located_of_mapError h fun e => SymbolTable.located_of_resolveAll hts hfile
    obtain h | ⟨m, -, h⟩ := step_eq_error h
    · have hresolved : SymbolTable.ofFile file = .ok table := by
        rw [SymbolTable.ofFile, Except.eq_ok_of_mapError hbase]
        exact Except.eq_ok_of_mapError htable
      exact located_of_mapError h fun e => Module.located_of_ofFile hts hfile hresolved
    · cases h

/-- A class that is defined twice, behind a comment whose characters take two bytes. -/
def secondStreet : Compilation :=
  ofSource ⟨"streets.h", "// Straße\nclass Street \x7b\x7d;\nclass Street \x7b\x7d;\n"⟩ default

/-- The report on it marks the second class, on line 3, and the first. -/
def streetReport : Report :=
  ⟨"streets.h", [⟨.duplicateClass ⟨[], "Street"⟩ ⟨11, 15⟩, 3, ⟨28, 15⟩⟩]⟩

/-- The comment in front has a character of two bytes, which the offsets count. -/
theorem streetReport_located : secondStreet.run.1 = .error streetReport ∧
    ∀ d ∈ streetReport.diagnostics, d.Located secondStreet.source.text := by
  have hrun : secondStreet.run.1 = .error streetReport := by
    have hreport : (match secondStreet.run.1 with
        | .ok _ => none
        | .error r => some r) = some streetReport := by decide +kernel
    cases hresult : secondStreet.run.1 with
    | ok m => rw [hresult] at hreport; cases hreport
    | error r => rw [hresult] at hreport; exact congrArg _ (Option.some.inj hreport)
  exact ⟨hrun, reports_located (.inr hrun)⟩

end Compilation

end BindingIdl
