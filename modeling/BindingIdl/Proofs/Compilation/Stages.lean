import BindingIdl.Proofs.Grammar.Parallel

/-!
# Calling a compilation again and again

A compilation remembers the stage it came to, and nothing else changes when it is called. A stage
is entered before its work is done and left when the work fails, so what a call comes to does not
depend on the stage it starts in (`Compilation.step_stage`), and the calls before it are forgotten.
What a call answers is the chain of the stages' work, and the stage it ends in says how it went:
`Answer.Truthful`.

The kind of a failure is taken from the first diagnostic. It speaks for all of them because each
stage but the parsing one stops at its first diagnostic, and the parser only makes complaints of
its own kind (`InterfaceFile.verdict_of_ofTokens`).
-/

namespace BindingIdl

/-! ## What a stage fails with -/

/-- Diagnostics that a stage can fail with: all of one kind, and only the parser has several. -/
structure Verdict (kind : DiagnosticKind) (ds : List Diagnostic) : Prop where
  nonempty : ds ≠ []
  kinds : ∀ d ∈ ds, d.kind = kind
  single : kind ≠ .grammar → ds.length = 1

/-- The first diagnostic tells the kind of them all. -/
theorem Verdict.head {kind : DiagnosticKind} {ds : List Diagnostic} (h : Verdict kind ds) :
    ds.head?.map Diagnostic.kind = some kind := by
  obtain ⟨d, rest, rfl⟩ := List.exists_cons_of_ne_nil h.nonempty
  exact congrArg some (h.kinds d List.mem_cons_self)

/-- A stage that stops at its first diagnostic. -/
theorem verdict_of_mapError {α : Type} {result : Except Diagnostic α} {ds : List Diagnostic}
    (h : result.mapError ([·]) = .error ds) : ∃ kind, Verdict kind ds := by
  cases result with
  | ok a => cases h
  | error d =>
    cases h
    exact ⟨d.kind, List.cons_ne_nil d [], by simp, fun _ => rfl⟩

/-- The view of a run in which only complaints of the grammar are seen. -/
def View.ofGrammar (settings : GrammarSettings) : View where
  shift := 0
  sees d := d.kind = .grammar
  own := settings
  other := settings
  sees_unconditional d h := by
    rw [Cause.isUnconditional, Bool.and_eq_true] at h
    exact h.1
  sees_crowding := by
    refine .inl ⟨rfl, fun d h => ?_⟩
    rcases d with ⟨cause, line, extent⟩
    cases cause <;> first | rfl | cases h

/-- Since nothing is lost in that view, the parser makes no other complaints. -/
theorem InterfaceFile.verdict_of_ofTokens {settings : GrammarSettings} {size : Nat}
    {tokens : List Token} {ds : List Diagnostic} (h : ofTokens settings size tokens = .error ds) :
    Verdict .grammar ds := by
  obtain ⟨items, -, -, hok⟩ | ⟨hne, herror⟩ := ofTokens_cases settings size tokens
  · rw [hok] at h
    cases h
  · rw [herror] at h
    cases h
    have hview := (reading_view (.ofGrammar settings) rfl size tokens).2
    refine ⟨hne, fun d hd => ?_, fun hk => absurd rfl hk⟩
    have hseen := List.filter_eq_self.mp hview.symm d hd
    exact of_decide_eq_true hseen

namespace Compilation

variable {α β : Type} {c : Compilation} {stage completed : Stage}
  {result : Except (List Diagnostic) α} {go : Compilation → α → Answer β}

/-! ## One stage -/

/-- It does not matter which stage is left when one is entered. -/
theorem step_stage (before : Stage) :
    ({ c with stage := before } : Compilation).step stage result go = c.step stage result go := by
  cases result <;> rfl

/-- A stage keeps the source and the settings if what follows it does. -/
theorem step_keeps (hgo : ∀ c' a, ∃ last, (go c' a).2 = { c' with stage := last }) :
    ∃ last, (c.step stage result go).2 = { c with stage := last } := by
  cases result with
  | ok a => exact hgo { c with stage } a
  | error ds => exact ⟨_, rfl⟩

/-- What a stage and those behind it answer is the chain of their work. -/
theorem step_answer {work : α → Except (List Diagnostic) β}
    (hgo : ∀ a, (go { c with stage } a).1 = (work a).mapError (Report.mk c.source.name)) :
    (c.step stage result go).1 = (result >>= work).mapError (Report.mk c.source.name) := by
  cases result with
  | ok a => exact hgo a
  | error ds => rfl

theorem step_answer_last {go : Compilation → α → Answer α}
    (hgo : ∀ a, (go { c with stage } a).1 = .ok a) :
    (c.step stage result go).1 = result.mapError (Report.mk c.source.name) := by
  cases result with
  | ok a => exact hgo a
  | error ds => rfl

/-- The stage of an answer says what came of the call: it is `completed` if the call succeeded, and
otherwise it names the kind of all that is reported. -/
structure Answer.Truthful (completed : Stage) (answer : Answer α) : Prop where
  succeeded : answer.2.stage = completed ↔ ∃ a, answer.1 = .ok a
  failed : ∀ report, answer.1 = .error report →
    ∃ kind, answer.2.stage = .failed kind ∧ Verdict kind report.diagnostics

/-- A stage that fails leaves its kind behind, and one that succeeds leaves the rest to what
follows. -/
theorem truthful_step (hcompleted : completed.isTerminal = true → completed = .done)
    (hresult : ∀ ds, result = .error ds → ∃ kind, Verdict kind ds)
    (hgo : ∀ a, result = .ok a → (go { c with stage } a).Truthful completed) :
    (c.step stage result go).Truthful completed := by
  cases result with
  | ok a => exact hgo a rfl
  | error ds =>
    obtain ⟨kind, hverdict⟩ := hresult ds rfl
    have hfail : c.step stage (.error ds) go =
        (.error ⟨c.source.name, ds⟩, { c with stage := .failed kind }) := by
      simp only [step, fail, hverdict.head, Option.getD_some]
    rw [hfail]
    refine ⟨⟨?_, nofun⟩, ?_⟩
    · rintro rfl
      cases hcompleted rfl
    · rintro _ ⟨⟩
      exact ⟨kind, rfl, hverdict⟩

/-! ## One call -/

theorem parse_stage (before : Stage) : ({ c with stage := before } : Compilation).parse = c.parse :=
  step_stage before

theorem run_stage (before : Stage) : ({ c with stage := before } : Compilation).run = c.run := by
  rw [run, parse_stage, run]

/-- Parsing changes the stage and nothing else. -/
theorem parse_keeps (c : Compilation) : ∃ last, c.parse.2 = { c with stage := last } :=
  step_keeps fun _ _ => step_keeps fun c' _ => ⟨c'.stage, rfl⟩

theorem run_keeps (c : Compilation) : ∃ last, c.run.2 = { c with stage := last } := by
  obtain ⟨last, hparse⟩ := parse_keeps c
  unfold run
  split
  · rename_i h
    rw [h] at hparse
    exact ⟨last, hparse⟩
  · rename_i c' h
    rw [h] at hparse
    obtain rfl : c' = { c with stage := last } := hparse
    exact step_keeps fun _ _ => step_keeps fun _ _ => step_keeps fun _ _ => ⟨.done, rfl⟩

/-- Parsing answers what the scanner and the grammar answer, one behind the other. -/
theorem parse_answer (c : Compilation) :
    c.parse.1 = ((do
      let tokens ← (InterfaceFile.tokensOf c.source.text).mapError ([·])
      InterfaceFile.ofTokens c.settings.grammar c.source.text.utf8ByteSize tokens) :
      Except (List Diagnostic) InterfaceFile).mapError (Report.mk c.source.name) :=
  step_answer fun _ => step_answer_last fun _ => rfl

/-- A run answers the chain of all its stages, from the text to the module. -/
theorem run_answer (c : Compilation) :
    c.run.1 = ((do
      let tokens ← (InterfaceFile.tokensOf c.source.text).mapError ([·])
      let file ← InterfaceFile.ofTokens c.settings.grammar c.source.text.utf8ByteSize tokens
      let table ← (SymbolTable.ofFile file).mapError ([·])
      (Module.ofFile c.settings.check table file).mapError ([·])) :
      Except (List Diagnostic) Module).mapError (Report.mk c.source.name) := by
  obtain ⟨last, hkeeps⟩ := c.parse_keeps
  have hparse : c.parse = (_, { c with stage := last }) := Prod.ext c.parse_answer hkeeps
  rw [run, hparse, ← bind_assoc]
  cases ((InterfaceFile.tokensOf c.source.text).mapError ([·]) >>= fun tokens =>
    InterfaceFile.ofTokens c.settings.grammar c.source.text.utf8ByteSize tokens) with
  | error ds => rfl
  | ok file =>
    have hresolve : (SymbolTable.ofFile file).mapError ([·]) =
        (SymbolTable.collect file).mapError ([·]) >>= fun table =>
          (table.resolveAll file).mapError ([·]) := by
      rw [SymbolTable.ofFile]
      cases SymbolTable.collect file <;> rfl
    change _ = Except.mapError _ ((SymbolTable.ofFile file).mapError ([·]) >>= fun table =>
      (Module.ofFile c.settings.check table file).mapError ([·]))
    rw [hresolve, bind_assoc]
    exact step_answer fun _ => step_answer fun _ => step_answer_last fun _ => rfl

theorem truthful_parse (c : Compilation) : c.parse.Truthful .parsing :=
  truthful_step nofun (fun _ => verdict_of_mapError) fun _ _ =>
    truthful_step nofun (fun _ h => ⟨.grammar, InterfaceFile.verdict_of_ofTokens h⟩) fun file _ =>
      ⟨by simp, nofun⟩

/-- A run ends where it is done, or in the kind of its first failure. -/
theorem truthful_run (c : Compilation) : c.run.Truthful .done := by
  have hparse := c.truthful_parse
  unfold run
  split
  · rename_i report c' h
    rw [h] at hparse
    obtain ⟨kind, hstage, hverdict⟩ := hparse.failed report rfl
    refine ⟨⟨fun hdone => ?_, nofun⟩, ?_⟩
    · cases hdone.symm.trans hstage
    · rintro _ ⟨⟩
      exact ⟨kind, hstage, hverdict⟩
  · rename_i file c' h
    refine truthful_step (fun _ => rfl) (fun _ => verdict_of_mapError) fun _ _ => ?_
    refine truthful_step (fun _ => rfl) (fun _ => verdict_of_mapError) fun _ _ => ?_
    refine truthful_step (fun _ => rfl) (fun _ => verdict_of_mapError) fun m _ => ?_
    exact ⟨by simp, nofun⟩

/-! ## Any number of calls -/

/-- What a caller can ask for. -/
inductive Call where
  | parse
  | run

/-- The compilation behind a call. -/
def Call.next (call : Call) (c : Compilation) : Compilation :=
  match call with
  | parse => c.parse.2
  | run => c.run.2

/-- The compilation behind some calls, one after the other. -/
def afterCalls (c : Compilation) (calls : List Call) : Compilation :=
  calls.foldl (fun c call => call.next c) c

/-- Calls change the stage and nothing else. -/
theorem afterCalls_keeps (c : Compilation) (calls : List Call) :
    ∃ last, c.afterCalls calls = { c with stage := last } := by
  induction calls generalizing c with
  | nil => exact ⟨c.stage, rfl⟩
  | cons call calls ih =>
    have hnext : ∃ last, call.next c = { c with stage := last } := by
      cases call with
      | parse => exact c.parse_keeps
      | run => exact c.run_keeps
    obtain ⟨last, hnext⟩ := hnext
    obtain ⟨last', hrest⟩ := ih (call.next c)
    refine ⟨last', ?_⟩
    rw [hnext] at hrest
    rw [afterCalls, List.foldl_cons, hnext]
    exact hrest

/-- Whatever was called before, a call comes to what it comes to on a fresh compilation. It answers
what the stages in their order answer, the first that fails having the last word, and the stage it
ends in tells which. -/
theorem calls_forget (source : SourceText) (settings : Settings) (calls : List Call) :
    ((ofSource source settings).afterCalls calls).parse = (ofSource source settings).parse ∧
    ((ofSource source settings).afterCalls calls).run = (ofSource source settings).run ∧
    (ofSource source settings).parse.1 = ((do
      let tokens ← (InterfaceFile.tokensOf source.text).mapError ([·])
      InterfaceFile.ofTokens settings.grammar source.text.utf8ByteSize tokens) :
      Except (List Diagnostic) InterfaceFile).mapError (Report.mk source.name) ∧
    (ofSource source settings).run.1 = ((do
      let tokens ← (InterfaceFile.tokensOf source.text).mapError ([·])
      let file ← InterfaceFile.ofTokens settings.grammar source.text.utf8ByteSize tokens
      let table ← (SymbolTable.ofFile file).mapError ([·])
      (Module.ofFile settings.check table file).mapError ([·])) :
      Except (List Diagnostic) Module).mapError (Report.mk source.name) ∧
    (ofSource source settings).parse.Truthful .parsing ∧
    (ofSource source settings).run.Truthful .done := by
  obtain ⟨last, hcalls⟩ := (ofSource source settings).afterCalls_keeps calls
  rw [hcalls]
  exact ⟨parse_stage last, run_stage last, parse_answer _, run_answer _, truthful_parse _,
    truthful_run _⟩

end Compilation

end BindingIdl
