/-!
# TOML values and tables

What a TOML document says, and the rules by which its lines add up to one table. A table may come
from a header, from being part of a longer header, or from a dotted key; which of these decides
whether it may be opened again:

* a header defines a table once, and may define one that longer headers already imply;
* a dotted key goes through implied tables and through those of other dotted keys only, and its own
  table must come from dotted keys;
* a value is closed, so nothing can be added to an inline table or an array of values.
-/

namespace BindingIdl.Toml

inductive Value where
  | string (content : String)
  | integer (value : Int)
  /-- A float, as written. -/
  | float (literal : String)
  | boolean (value : Bool)
  /-- A date, a time or both, as written. -/
  | datetime (literal : String)
  | array (elements : List Value)
  | table (entries : List (String × Value))
deriving Repr, Inhabited

/-- How a table came to be. -/
inductive Origin where
  /-- By a header of its own. -/
  | header
  /-- As part of a longer header. -/
  | implied
  | dotted
deriving DecidableEq, Repr, Inhabited

/-- A part of a document that is still being read. -/
inductive Node where
  | value (content : Value)
  | table (origin : Origin) (entries : List (String × Node))
  /-- The tables of a repeated header; the last one is open. -/
  | series (tables : List (List (String × Node)))
deriving Inhabited

abbrev Entries := List (String × Node)

/-! ## The finished document -/

mutual

def Node.toValue : Node → Value
  | .value content => content
  | .table _ entries => .table (Node.values entries)
  | .series tables => .array (Node.tableValues tables)

def Node.values : List (String × Node) → List (String × Value)
  | [] => []
  | (key, node) :: rest => (key, node.toValue) :: Node.values rest

def Node.tableValues : List (List (String × Node)) → List Value
  | [] => []
  | entries :: rest => .table (Node.values entries) :: Node.tableValues rest

end

/-! ## Adding to a table -/

/-- Give a key a new value in place of the one it has. -/
def Entries.set (key : String) (node : Node) : Entries → Entries
  | [] => [(key, node)]
  | entry :: rest =>
    if entry.1 = key then (key, node) :: rest else entry :: Entries.set key node rest

/-- Change the table at the end of a path, making the tables on the way that are not there yet. The
origin of the table that is changed comes with its entries. -/
def Entries.descend (made : Origin) (change : Origin → Entries → Option Entries) :
    List String → Origin → Entries → Option Entries
  | [], origin, entries => change origin entries
  | key :: path, _, entries =>
    match entries.lookup key with
    | none => do
      let inner ← descend made change path made []
      return entries ++ [(key, .table made inner)]
    | some (.value _) => none
    | some (.table origin inner) =>
      if made = .dotted && origin = .header then none
      else do
        let inner ← descend made change path origin inner
        return entries.set key (.table origin inner)
    | some (.series tables) => do
      let last ← tables.getLast?
      let last ← descend made change path .header last
      return entries.set key (.series (tables.dropLast ++ [last]))

/-- Add a key that must not be there yet. -/
def Entries.insertNew (key : String) (node : Node) (entries : Entries) : Option Entries :=
  if (entries.lookup key).isSome then none else some (entries ++ [(key, node)])

/-- Add a value under a key, which is dotted if `path` is not empty. -/
def Entries.addValue (path : List String) (key : String) (content : Value) (origin : Origin)
    (entries : Entries) : Option Entries :=
  entries.descend .dotted (fun origin entries =>
    if path.isEmpty || origin = .dotted then entries.insertNew key (.value content) else none)
    path origin

/-- Open the table of a header. -/
def Entries.openTable (path : List String) (key : String) (root : Entries) : Option Entries :=
  root.descend .implied (fun _ entries =>
    match entries.lookup key with
    | none => some (entries ++ [(key, .table .header [])])
    | some (.table .implied inner) => some (entries.set key (.table .header inner))
    | some _ => none)
    path .header

/-- Open one more table of a repeated header. -/
def Entries.openNext (path : List String) (key : String) (root : Entries) : Option Entries :=
  root.descend .implied (fun _ entries =>
    match entries.lookup key with
    | none => some (entries ++ [(key, .series [[]])])
    | some (.series tables) => some (entries.set key (.series (tables ++ [[]])))
    | some _ => none)
    path .header

/-- Add a value to the table that the last header opened. -/
def Entries.addUnder (header path : List String) (key : String) (content : Value) (root : Entries) :
    Option Entries :=
  root.descend .implied (fun origin entries => entries.addValue path key content origin)
    header .header

end BindingIdl.Toml
