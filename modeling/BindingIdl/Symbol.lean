import BindingIdl.Declaration
import Std.Data.TreeMap

/-!
# The symbol table

Every class of a file under its full path, and what each reference in a signature was found to
mean. Classes are told apart by the text of their path. A class keeps the id it got when its path
was first declared, whether by a definition or by a forward declaration; a definition later takes
over what a forward declaration started, and two definitions clash.

A *root stub* is a class that has only been forward declared, outside any namespace. It answers for
references that nothing else explains.
-/

namespace BindingIdl

/-- How much the file says about a class. -/
inductive SymbolKind where
  | defined
  /-- Only asserted to exist. -/
  | forwardOnly
deriving DecidableEq, Repr, Inhabited

def SymbolKind.ofDeclaration : Declaration → SymbolKind
  | .definition _ => .defined
  | .forward _ => .forwardOnly

structure Symbol where
  path : QualifiedName
  kind : SymbolKind
  /-- The defining node, or the first forward declaration as long as there is no definition. -/
  node : NodeId
  span : Span
deriving DecidableEq, Repr, Inhabited

namespace Symbol

def isForwardOnly (s : Symbol) : Bool := s.kind = .forwardOnly

def isRootStub (s : Symbol) : Bool := s.isForwardOnly && s.path.namespaces.isEmpty

/-- The symbol once a definition of it has been seen. -/
def define (s : Symbol) (node : NodeId) (span : Span) : Symbol :=
  { s with kind := .defined, node, span }

end Symbol

/-- Identifies a class of one table, by the order of first declaration. -/
abbrev ClassId := Nat

/-- What a reference means. -/
structure Reference where
  target : ClassId
  /-- The path that generated code should use. -/
  path : QualifiedName
  /-- Backed by nothing but a forward declaration. -/
  external : Bool
deriving DecidableEq, Repr, Inhabited

/-- The classes, two indexes of them, and the references. Nothing here makes the indexes fit the
classes: that they do is kept up by what is done to a table. -/
structure SymbolTable where
  /-- In order of first declaration, so that an id is a place in it. -/
  symbols : List Symbol
  /-- The id of each class, under the text of its path. -/
  byPath : Std.TreeMap String ClassId
  /-- The ids of the root stubs, under their names. -/
  rootStubs : Std.TreeMap String ClassId
  references : Std.TreeMap NodeId Reference

namespace SymbolTable

def empty : SymbolTable := ⟨[], ∅, ∅, ∅⟩

instance : Inhabited SymbolTable := ⟨empty⟩

/-- The class with a path of this text. -/
def lookup (table : SymbolTable) (path : String) : Option ClassId := table.byPath[path]?

/-- The class that is only forward declared, outside any namespace, by this name. -/
def rootStub (table : SymbolTable) (name : String) : Option ClassId := table.rootStubs[name]?

def symbol? (table : SymbolTable) (id : ClassId) : Option Symbol := table.symbols[id]?

/-- Start a symbol for a class that is not known yet. -/
def add (table : SymbolTable) (s : Symbol) : SymbolTable :=
  let id := table.symbols.length
  { table with
    symbols := table.symbols ++ [s]
    byPath := table.byPath.insert s.path.text id
    rootStubs := if s.isRootStub then table.rootStubs.insert s.path.name id else table.rootStubs }

/-- Define a class whose symbol, `old`, has only been forward declared. A root stub goes by the path
it was first declared with, and it is one no longer. -/
def define (table : SymbolTable) (id : ClassId) (old : Symbol) (node : NodeId) (span : Span) :
    SymbolTable :=
  { table with
    symbols := table.symbols.modify id (·.define node span)
    rootStubs :=
      if old.path.namespaces.isEmpty then table.rootStubs.erase old.path.name
      else table.rootStubs }

/-- Record a class or a forward declaration. The answer is the class's id, or the id of the
definition that this one repeats; with it comes the table as it is then, whatever the answer. -/
def enter (table : SymbolTable) (path : QualifiedName) (kind : SymbolKind) (node : NodeId)
    (span : Span) : Except ClassId ClassId × SymbolTable :=
  match table.lookup path.text with
  | none => (.ok table.symbols.length, table.add ⟨path, kind, node, span⟩)
  | some id =>
    match kind, table.symbol? id with
    | .forwardOnly, _ => (.ok id, table)
    | .defined, some old =>
      match old.kind with
      | .defined => (.error id, table)
      | .forwardOnly => (.ok id, table.define id old node span)
    -- the ids in the index all have a symbol
    | .defined, none => (.ok id, table)

/-- The same for those who go no further than the first clash, which leaves the table as it was. -/
def declare (table : SymbolTable) (path : QualifiedName) (kind : SymbolKind) (node : NodeId)
    (span : Span) : Except ClassId (ClassId × SymbolTable) :=
  match table.enter path kind node span with
  | (.ok id, next) => .ok (id, next)
  | (.error first, _) => .error first

/-- Attach what a reference means to its node; an earlier meaning of the node is replaced. -/
def record (table : SymbolTable) (node : NodeId) (reference : Reference) : SymbolTable :=
  { table with references := table.references.insert node reference }

def reference? (table : SymbolTable) (node : NodeId) : Option Reference := table.references[node]?

/-- How many classes there are. -/
def size (table : SymbolTable) : Nat := table.byPath.size

def isEmpty (table : SymbolTable) : Bool := table.byPath.isEmpty

def referenceCount (table : SymbolTable) : Nat := table.references.size

end SymbolTable

end BindingIdl
