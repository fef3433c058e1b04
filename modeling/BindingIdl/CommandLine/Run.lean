import BindingIdl.CommandLine.Help
import BindingIdl.Compilation
import BindingIdl.Dependency.Order
import BindingIdl.File.Path
import BindingIdl.File.Tree
import BindingIdl.Json.Declaration
import BindingIdl.Json.Diagnostic
import BindingIdl.Json.Module
import BindingIdl.Module.Printer
import BindingIdl.Settings.File

/-!
# Running commands

`CommandLine.run` carries out the program: it looks at files only through a function from paths to
what stands there, and answers with what is printed and with the exit status. The status is 0 for
success, 1 if the work could not be done, and 2 for arguments that make no sense.

Nothing is printed on failure, except that `check --json` lists the diagnostics.
-/

namespace BindingIdl

def version : String := "0.3.0"

/-- The settings file that is looked for beside the input. -/
def settingsFileName : String := "wrap.toml"

/-- How a run of the program ends. -/
structure RunResult where
  status : Nat
  output : String
deriving DecidableEq, Repr, Inhabited

namespace RunResult

def success (output : String) : RunResult := ⟨0, output⟩

/-- The work could not be done. -/
def failure : RunResult := ⟨1, ""⟩

def misuse : RunResult := ⟨2, ""⟩

end RunResult

/-! ## Texts -/

/-- A text of several lines, each of them ended. -/
def linesText (lines : List String) : String := String.join (lines.map (· ++ "\n"))

/-- How much of everything a module has. -/
def Module.summary (m : Module) (name : String) : String :=
  let members := m.allClasses.foldl (fun n c => n + c.members.length) 0
  name ++ ": " ++ toString m.definedClasses.length ++ " classes, "
    ++ toString m.forwardDeclarations.length ++ " forward declarations, "
    ++ toString members ++ " members"

/-- A number with blanks in front, up to a width of three. -/
def rightAligned (n : Nat) : String :=
  let digits := toString n
  String.ofList (List.replicate (3 - digits.length) ' ') ++ digits

/-- What each defined class depends on, and the order in which bindings can be generated. -/
def Module.dependencyText (m : Module) : List String :=
  let graph := DependencyGraph.ofModule m
  let mention (c : Class) : String :=
    match graph.dependenciesOf c.qualifiedName with
    | [] => "  " ++ c.qualifiedName
    | names => "  " ++ c.qualifiedName ++ " -> " ++ ", ".intercalate names
  let step (entry : List String × Nat) : String :=
    "  " ++ rightAligned (entry.2 + 1) ++ ". " ++ " + ".intercalate entry.1
  ["=== Dependencies ==="] ++ m.definedClasses.map mention
    ++ ["=== Generation order ==="] ++ graph.generationOrder.zipIdx.map step

def infoText : List String :=
  ["wrap interface front-end",
    "Version: " ++ version,
    "",
    "Primitive types: string bool size_t int double char void",
    "Eigen types:     Matrix Vector",
    "Class types:     X, const X&, boost::shared_ptr<X>, X* (returns transfer ownership)",
    "",
    "Settings (" ++ settingsFileName ++ "):",
    "  [parser] one_declaration_per_line",
    "  [check]  reject_ambiguous_constructors"]

/-! ## Commands -/

/-- Settings from what stands at their path; nothing there means the defaults. -/
def Settings.ofEntry? : FileEntry → Option Settings
  | .absent => some default
  | .unreadable => none
  | .text content => ofText? content

/-- The source and the settings of a command, unless one of them cannot be had. -/
def Compilation.load? {m : Type → Type} [Monad m] (look : String → m FileEntry) (input : String)
    (settingsPath : Option String) : m (Option Compilation) := do
  match ← look input with
  | .text content =>
    let entry ← look (settingsPath.getD (Path.beside input settingsFileName))
    return (Settings.ofEntry? entry).map fun settings => .ofSource ⟨input, content⟩ settings
  | _ => return none

/-- What a failed check prints. -/
def RunResult.ofReport (json : Bool) (report : Report) : RunResult :=
  if json then ⟨1, linesText [report.recordsJson.pretty]⟩ else failure

def Compilation.check (c : Compilation) (json : Bool) (printed : Option PrintedForm)
    (dependencies : Bool) : RunResult :=
  let dependencyLines (m : Module) : String :=
    if dependencies then linesText m.dependencyText else ""
  match printed with
  | some .declarations =>
    match c.parse with
    | (.ok file, _) => .success (linesText [file.toJson.pretty])
    | (.error report, _) => .ofReport json report
  | printed =>
    match c.run with
    | (.error report, _) => .ofReport json report
    | (.ok m, _) =>
      let main := match printed with
        | some .module => linesText [m.toJson.pretty]
        | some .interfaceText => m.text
        | _ => linesText [m.summary c.source.name]
      .success (main ++ dependencyLines m)

def Compilation.lookup (c : Compilation) (name : String) : RunResult :=
  match c.run with
  | (.error _, _) => .failure
  | (.ok m, _) =>
    match m.lookup name with
    | some found => .success (linesText [found.toJson.pretty])
    | none => .failure

namespace CommandLine

/-- Carry out one command. -/
def execute {m : Type → Type} [Monad m] (look : String → m FileEntry) (line : CommandLine) :
    m RunResult :=
  let loaded (input : String) (go : Compilation → RunResult) : m RunResult := do
    return ((← Compilation.load? look input line.settingsPath).map go).getD .failure
  match line.command with
  | .check input json printed dependencies => loaded input (·.check json printed dependencies)
  | .lookup input name => loaded input (·.lookup name)
  | .info => return .success (linesText infoText)

/-- Carry out the program. -/
def run {m : Type → Type} [Monad m] (look : String → m FileEntry) (args : List String) :
    m RunResult :=
  match ofArguments args with
  | .ok line => line.execute look
  | .error .version => return .success (linesText [programName ++ " " ++ version])
  | .error (.help topic full) => return .success (linesText (topic.lines full))
  | .error .misuse => return .misuse

end CommandLine

end BindingIdl
