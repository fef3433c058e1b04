import BindingIdl.Declaration.Grammar
import BindingIdl.Module.Classification
import BindingIdl.Symbol.Resolution
import BindingIdl.Token.Scan

/-!
# Compiling one interface file

The steps from a text to its module tree, each of which can fail with diagnostics. A `Compilation`
is a source with its settings that also remembers which stage its last run came to; running it
again starts afresh.
-/

namespace BindingIdl

/-- A text and the name under which it is reported. -/
structure SourceText where
  name : String
  text : String
deriving DecidableEq, Repr, Inhabited

/-- The name of a text that is in no file. -/
def SourceText.inputName : String := "<input>"

inductive Stage where
  | start
  | lexing
  | parsing
  | collecting
  | resolving
  | classifying
  | done
  | failed (kind : DiagnosticKind)
deriving DecidableEq, Repr, Inhabited

namespace Stage

def isTerminal : Stage → Bool
  | done | failed _ => true
  | _ => false

def describe : Stage → String
  | start => "start"
  | lexing => "lexing"
  | parsing => "parsing"
  | collecting => "collecting"
  | resolving => "resolving"
  | classifying => "classifying"
  | done => "done"
  | failed kind => "failed (" ++ kind.describe ++ ")"

end Stage

def LexicalError.diagnostic (e : LexicalError) : Diagnostic :=
  .about e.span (.ofLexicalFault e.text e.cause)

namespace InterfaceFile

/-- The tokens of a text, or why there are none. -/
def tokensOf (text : String) : Except Diagnostic (List Token) :=
  (Token.ofText text).mapError LexicalError.diagnostic

/-- Read an interface file. -/
def ofText (settings : GrammarSettings) (text : String) :
    Except (List Diagnostic) InterfaceFile := do
  let tokens ← (tokensOf text).mapError ([·])
  ofTokens settings text.utf8ByteSize tokens

/-- Resolve and classify a file that has been read. -/
def module (settings : CheckSettings) (file : InterfaceFile) : Except Diagnostic Module := do
  Module.ofFile settings (← SymbolTable.ofFile file) file

end InterfaceFile

/-- The module tree of a text. -/
def Module.ofText (settings : Settings) (text : String) : Except (List Diagnostic) Module := do
  let file ← InterfaceFile.ofText settings.grammar text
  (file.module settings.check).mapError ([·])

/-! ## Compilations -/

structure Compilation where
  source : SourceText
  settings : Settings
  stage : Stage

namespace Compilation

/-- A compilation that has not been run. -/
def ofSource (source : SourceText) (settings : Settings) : Compilation := ⟨source, settings, .start⟩

/-- What a run comes to: an answer or the diagnostics that ended it, and the compilation at the
stage that was reached. -/
abbrev Answer (α : Type) : Type := Except Report α × Compilation

/-- The run failed with these diagnostics. -/
def fail {α : Type} (c : Compilation) (diagnostics : List Diagnostic) : Answer α :=
  let kind := (diagnostics.head?.map Diagnostic.kind).getD .grammar
  (.error ⟨c.source.name, diagnostics⟩, { c with stage := .failed kind })

/-- Enter a stage, whose work gives `result`; go on with its answer, or fail with its
diagnostics. -/
def step {α β : Type} (c : Compilation) (stage : Stage) (result : Except (List Diagnostic) α)
    (go : Compilation → α → Answer β) : Answer β :=
  match result with
  | .ok a => go { c with stage } a
  | .error diagnostics => c.fail diagnostics

/-- Read the source. The compilation stays in the parsing stage if that succeeds. -/
def parse (c : Compilation) : Answer InterfaceFile :=
  c.step .lexing ((InterfaceFile.tokensOf c.source.text).mapError ([·])) fun c tokens =>
    c.step .parsing
      (InterfaceFile.ofTokens c.settings.grammar c.source.text.utf8ByteSize tokens)
      fun c file => (.ok file, c)

/-- Go through every stage. -/
def run (c : Compilation) : Answer Module :=
  match c.parse with
  | (.error report, c) => (.error report, c)
  | (.ok file, c) =>
    c.step .collecting ((SymbolTable.collect file).mapError ([·])) fun c table =>
      c.step .resolving ((table.resolveAll file).mapError ([·])) fun c table =>
        c.step .classifying ((Module.ofFile c.settings.check table file).mapError ([·]))
          fun c m => (.ok m, { c with stage := .done })

end Compilation

end BindingIdl
