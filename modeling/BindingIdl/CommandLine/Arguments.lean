/-!
# Arguments of the command line

`CommandLine.ofArguments` reads the arguments of the program. Options that belong to every command
may stand before or behind its name; where an option with a value is given in both places, the
later one counts. In one place an option may be given only once. Values are given as the next
argument, which must not look like an option, or behind `=`.

The arguments are judged in their order, and the first one that asks for help or for the version,
or that makes no sense, ends the reading. Only a value given as the next argument is judged later:
when something else is read in its place, or at the end. What the command lacks shows at the end
too.
-/

namespace BindingIdl

/-- The forms in which a file can be printed. -/
inductive PrintedForm where
  | declarations
  | module
  | interfaceText
deriving DecidableEq, Repr, Inhabited

inductive Command where
  | check (input : String) (json : Bool) (printed : Option PrintedForm) (dependencies : Bool)
  | lookup (input name : String)
  | info
deriving DecidableEq, Repr, Inhabited

/-- A command with what every command takes. -/
structure CommandLine where
  command : Command
  verbose : Bool
  settingsPath : Option String
deriving DecidableEq, Repr, Inhabited

/-- What there is help about. -/
inductive HelpTopic where
  | program
  | check
  | lookup
  | info
  /-- The command that prints help. -/
  | help
deriving DecidableEq, Repr, Inhabited

/-- What ends the reading without a command. -/
inductive ArgumentStop where
  | version
  | help (topic : HelpTopic) (full : Bool)
  /-- The arguments make no sense. -/
  | misuse
deriving DecidableEq, Repr, Inhabited

namespace CommandLine

/-- Where an argument stands: before the name of the command, or behind it. -/
inductive Place where
  | top
  | check
  | lookup
  | info
deriving DecidableEq, Repr, Inhabited

/-- What help is about that is asked for in a place. -/
def Place.topic : Place → HelpTopic
  | .top => .program
  | .check => .check
  | .lookup => .lookup
  | .info => .info

/-- What has been given in one place. -/
structure Given where
  verbose : Bool
  json : Bool
  dependencies : Bool
  settingsPath : Option String
  printed : Option PrintedForm
  positional : List String
  /-- An option whose value was the last argument read. It has not been judged yet. -/
  pending : Option (String × String)
deriving DecidableEq, Repr

namespace Given

def nothing : Given := ⟨false, false, false, none, none, [], none⟩

/-! ## Single arguments -/

/-- Whether an option is new; giving it twice is misuse. -/
def once (given : Bool) (updated : Given) : Except ArgumentStop Given :=
  if given then .error .misuse else .ok updated

/-- An option without a value, by its long name. -/
def switch (place : Place) (g : Given) : String → Except ArgumentStop Given
  | "--verbose" => once g.verbose { g with verbose := true }
  | "--json" => if place = .check then once g.json { g with json := true } else .error .misuse
  | "--deps" =>
    if place = .check then once g.dependencies { g with dependencies := true } else .error .misuse
  | "--version" => .error (if place = .top then .version else .misuse)
  | "--help" => .error (.help place.topic true)
  | _ => .error .misuse

/-- One letter behind a single dash. The help it asks for is brief. -/
def letter (place : Place) (g : Given) : Char → Except ArgumentStop Given
  | 'v' => g.switch place "--verbose"
  | 'V' => g.switch place "--version"
  | 'h' => .error (.help place.topic false)
  | _ => .error .misuse

/-- Whether an option takes a value. -/
def takesValue (place : Place) (name : String) : Bool :=
  name = "--config" || (name = "--emit" && place = .check)

def printedForm? : String → Option PrintedForm
  | "ast" => some .declarations
  | "tree" => some .module
  | "idl" => some .interfaceText
  | _ => none

/-- An option with its value. -/
def valued (g : Given) (name value : String) : Except ArgumentStop Given :=
  if name = "--config" then
    if value = "" then .error .misuse
    else once g.settingsPath.isSome { g with settingsPath := some value }
  else
    match printedForm? value with
    | some form => once g.printed.isSome { g with printed := some form }
    | none => .error .misuse

/-- Judge the value that has not been judged yet. -/
def settle (g : Given) : Except ArgumentStop Given :=
  match g.pending with
  | some (name, value) => { g with pending := none }.valued name value
  | none => .ok g

/-- An argument that is no option: first an input, which has a path, and for a look-up a name. -/
def addPositional (place : Place) (g : Given) (arg : String) : Except ArgumentStop Given :=
  let added : Given := { g with positional := g.positional ++ [arg] }
  match place, g.positional with
  | .check, [] | .lookup, [] => if arg = "" then .error .misuse else .ok added
  | .lookup, [_] => .ok added
  | _, _ => .error .misuse

/-! ## All arguments -/

/-- Whether an argument is read as options. A dash alone is not. -/
def looksLikeOption (arg : String) : Bool :=
  match arg.toList with
  | '-' :: _ :: _ => true
  | _ => false

/-- A long option taken apart at its first `=`. -/
def splitValue (arg : String) : String × Option String :=
  let (name, value) := arg.toList.span (· ≠ '=')
  (String.ofList name,
    match value with
    | _ :: value => some (String.ofList value)
    | [] => none)

def isLong (arg : String) : Bool := "--".toList.isPrefixOf arg.toList

/-- Read the arguments that stand in one place. At the top, the first one that is no option ends
it, and it and those behind it are left over. Behind `--` nothing is an option. -/
def read (place : Place) (g : Given) : List String → Except ArgumentStop (Given × List String)
  | [] => .ok (g, [])
  | arg :: rest =>
    if arg = "--" then do
      return (← rest.foldlM (addPositional place) (← g.settle), [])
    else if isLong arg then
      match splitValue arg with
      | (name, some value) =>
        if takesValue place name then do
          read place (← (← g.settle).valued name value) rest
        else .error .misuse
      | (name, none) =>
        if takesValue place name then
          match rest with
          | [] => .error .misuse
          | value :: rest =>
            if looksLikeOption value then .error .misuse
            else do read place { ← g.settle with pending := some (name, value) } rest
        else do read place (← (← g.settle).switch place name) rest
    else if looksLikeOption arg then do
      read place (← (arg.toList.drop 1).foldlM (letter place) (← g.settle)) rest
    else if place = .top then .ok (g, arg :: rest)
    else do read place (← (← g.settle).addPositional place arg) rest

end Given

/-! ## Commands -/

def place? : String → Option Place
  | "check" => some .check
  | "lookup" => some .lookup
  | "info" => some .info
  | _ => none

/-- The command that what was given behind its name makes. -/
def command? (place : Place) (g : Given) : Option Command :=
  match place, g.positional with
  | .check, [input] => some (.check input g.json g.printed g.dependencies)
  | .lookup, [input, name] => some (.lookup input name)
  | .info, [] => some .info
  | _, _ => none

/-- What arguments ask for that start with no command's name: help at most. -/
def stopOf : List String → ArgumentStop
  | ["help"] => .help .program true
  | ["help", "help"] => .help .help true
  | ["help", name] =>
    match place? name with
    | some place => .help place.topic true
    | none => .misuse
  | _ => .misuse

/-- The command line that arguments make. -/
def ofArguments (args : List String) : Except ArgumentStop CommandLine := do
  let (before, rest) ← Given.nothing.read .top args
  match rest with
  | [] => .error .misuse
  | name :: rest =>
    match place? name with
    | none => .error (stopOf (name :: rest))
    | some place =>
      let (behind, _) ← Given.nothing.read place rest
      let behind ← behind.settle
      let before ← before.settle
      match command? place behind with
      | none => .error .misuse
      | some command =>
        return ⟨command, before.verbose || behind.verbose,
          behind.settingsPath <|> before.settingsPath⟩

end CommandLine

end BindingIdl
