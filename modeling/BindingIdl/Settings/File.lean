import BindingIdl.Settings
import BindingIdl.Toml.Reader

/-!
# Settings files

Settings are a TOML document with the tables `parser` and `check`. Keys that mean nothing here are
left alone, and what is not said takes its default. A table may also be written as an array that
gives its values in order.
-/

namespace BindingIdl

/-- A flag of a settings table, or its default if the table does not say. -/
def flagOf? (key : String) (default : Bool) (table : Toml.Value) : Option Bool :=
  let stated := match table with
    | .table entries => some (entries.lookup key)
    | .array elements => some elements.head?
    | .datetime _ => some none
    | _ => none
  match stated with
  | some none => some default
  | some (some (.boolean b)) => some b
  | _ => none

namespace Settings

def ofDocument? (document : List (String × Toml.Value)) : Option Settings := do
  let flag (table key : String) (default : Bool) : Option Bool :=
    match document.lookup table with
    | none => some default
    | some content => flagOf? key default content
  let crowding ← flag "parser" "one_declaration_per_line"
    (default : GrammarSettings).oneDeclarationPerLine
  let ambiguity ← flag "check" "reject_ambiguous_constructors"
    (default : CheckSettings).rejectAmbiguousConstructors
  return ⟨⟨crowding⟩, ⟨ambiguity⟩⟩

/-- The settings that a text makes, unless it is no settings file. -/
def ofText? (text : String) : Option Settings := Toml.document? text >>= ofDocument?

end Settings

end BindingIdl
