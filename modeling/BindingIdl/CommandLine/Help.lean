import BindingIdl.CommandLine.Arguments

/-!
# Help pages

What the program says about itself and its commands. A page names what it is about, how that is
written, and then lists commands, arguments and options, each with its meaning.

A page has a brief form, with one line for each entry, and a full form, which also tells what the
words mean that an option's value is chosen from. Where no option has such words, the two forms
are the same; where one has, the help option points to the other form.
-/

namespace BindingIdl

def programName : String := "wrapc"

/-- How something is written on the command line, and what it means. -/
structure HelpEntry where
  form : String
  meaning : String
  /-- The words an option's value is chosen from, with their meanings. -/
  choices : List (String × String)
deriving DecidableEq, Repr, Inhabited

structure HelpPage where
  about : String
  usage : String
  commands : List HelpEntry
  arguments : List HelpEntry
  options : List HelpEntry
deriving DecidableEq, Repr, Inhabited

namespace HelpEntry

/-- A text with blanks behind it, up to a width. -/
def padded (width : Nat) (text : String) : String :=
  text ++ String.ofList (List.replicate (width - text.length) ' ')

/-- The width of the longest of some texts. -/
def widest (texts : List String) : Nat := texts.foldl (fun width text => max width text.length) 0

/-- The entry on one line, with its form padded to a width. -/
def brief (width : Nat) (entry : HelpEntry) : String :=
  let choices :=
    if entry.choices.isEmpty then ""
    else " [possible values: " ++ ", ".intercalate (entry.choices.map (·.1)) ++ "]"
  "  " ++ padded width entry.form ++ "  " ++ entry.meaning ++ choices

/-- The entry on lines of its own, its choices one by one. -/
def full (entry : HelpEntry) : List String :=
  let width := widest (entry.choices.map (·.1))
  let choice (word meaning : String) : String :=
    "          - " ++ padded (width + 2) (word ++ ":") ++ meaning
  let choices := entry.choices.map fun (word, meaning) => choice word meaning
  ["  " ++ entry.form, "          " ++ entry.meaning]
    ++ if choices.isEmpty then [] else ["", "          Possible values:"] ++ choices

end HelpEntry

namespace HelpPage

/-- Whether the full form says more than the brief one. -/
def hasMore (page : HelpPage) : Bool := page.options.any fun entry => !entry.choices.isEmpty

/-- Entries under their heading. Without entries there is no heading either. -/
def part (full : Bool) (heading : String) (entries : List HelpEntry) : List String :=
  let lines :=
    if full then [""].intercalate (entries.map HelpEntry.full)
    else entries.map (HelpEntry.brief (HelpEntry.widest (entries.map (·.form))))
  if entries.isEmpty then [] else ["", heading ++ ":"] ++ lines

/-- The lines of a page. -/
def lines (page : HelpPage) (full : Bool) : List String :=
  let part := part (full && page.hasMore)
  [page.about, "", "Usage: " ++ programName ++ page.usage]
    ++ part "Commands" page.commands ++ part "Arguments" page.arguments
    ++ part "Options" page.options

/-! ## The pages of the program -/

def verboseOption : HelpEntry := ⟨"-v, --verbose", "Enable verbose output", []⟩

def settingsOption : HelpEntry :=
  ⟨"    --config <FILE>", "Settings file (defaults to `wrap.toml` beside the input)", []⟩

def helpOption (meaning : String) : HelpEntry := ⟨"-h, --help", meaning, []⟩

def printedFormOption : HelpEntry :=
  ⟨"    --emit <EMIT>", "Print an intermediate form",
    [("ast", "Abstract Syntax Tree (JSON)"), ("tree", "Classified module tree (JSON)"),
      ("idl", "Canonical interface text")]⟩

def inputArgument : HelpEntry := ⟨"<FILE>", "Input file", []⟩

def aboutCheck : String := "Check an interface file and report diagnostics"

def aboutLookup : String := "Print one class of an interface file as JSON"

def aboutInfo : String := "Show information about the front-end"

def aboutHelp : String := "Print this message or the help of the given subcommand(s)"

/-- The page about a topic, in a form that is full or brief. -/
def ofTopic (full : Bool) : HelpTopic → HelpPage
  | .program =>
    { about := "Parse, resolve and classify wrap interface files"
      usage := " [OPTIONS] <COMMAND>"
      commands := [⟨"check", aboutCheck, []⟩, ⟨"lookup", aboutLookup, []⟩, ⟨"info", aboutInfo, []⟩,
        ⟨"help", aboutHelp, []⟩]
      arguments := []
      options := [verboseOption, settingsOption, helpOption "Print help",
        ⟨"-V, --version", "Print version", []⟩] }
  | .check =>
    { about := aboutCheck
      usage := " check [OPTIONS] <FILE>"
      commands := []
      arguments := [inputArgument]
      options := [⟨"    --json", "Report diagnostics as JSON records", []⟩, verboseOption,
        settingsOption, printedFormOption,
        ⟨"    --deps", "Print the class dependency graph and generation order", []⟩,
        helpOption (if full then "Print help (see a summary with '-h')"
          else "Print help (see more with '--help')")] }
  | .lookup =>
    { about := aboutLookup
      usage := " lookup [OPTIONS] <FILE> <NAME>"
      commands := []
      arguments := [inputArgument,
        ⟨"<NAME>", "Fully-qualified class name, e.g. `gtsam::Pose2`", []⟩]
      options := [verboseOption, settingsOption, helpOption "Print help"] }
  | .info =>
    { about := aboutInfo
      usage := " info [OPTIONS]"
      commands := []
      arguments := []
      options := [verboseOption, settingsOption, helpOption "Print help"] }
  | .help =>
    { about := aboutHelp
      usage := " help [COMMAND]..."
      commands := []
      arguments := [⟨"[COMMAND]...", "Print help for the subcommand(s)", []⟩]
      options := [] }

end HelpPage

/-- The help about a topic. -/
def HelpTopic.lines (topic : HelpTopic) (full : Bool) : List String :=
  (HelpPage.ofTopic full topic).lines full

end BindingIdl
