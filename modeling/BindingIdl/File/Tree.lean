/-!
# Files by path

What stands at a path, for a program that reads files, and a tree of files held in memory.
Directories exist as far as the paths of files lead through them. Outside the tree there are only
the directories above its top, and what is in those cannot be named.
-/

namespace BindingIdl

/-- What stands at a path. -/
inductive FileEntry where
  | absent
  /-- Something that has no text, such as a directory. -/
  | unreadable
  | text (content : String)
deriving DecidableEq, Repr, Inhabited

/-- Files and directories with their places: the names on the way from the top of the tree. -/
structure FileTree where
  files : List (List String × String)
  directories : List (List String)
deriving DecidableEq, Repr, Inhabited

namespace FileTree

/-- Where a piece of a path leads from a place: empty pieces and `.` nowhere else, `..` one up. -/
def step (here : List String) (piece : String) : List String :=
  if piece = "" || piece = "." then here
  else if piece = ".." then here.dropLast
  else here ++ [piece]

/-- The places that pieces of a path lead through one after the other. -/
def route (here : List String) : List String → List (List String)
  | [] => []
  | piece :: rest => step here piece :: route (step here piece) rest

/-- A tree with no file, whose top is a directory all the same. -/
def empty : FileTree := ⟨[], [[]]⟩

/-- Add a file and the directories on the way to it. It takes the place of an earlier one. -/
def addFile (tree : FileTree) (file : String × String) : FileTree :=
  let places := route [] (file.1.splitOn "/")
  ⟨(places.getLastD [], file.2) :: tree.files, places.dropLast ++ tree.directories⟩

/-- The tree of some files with their paths. -/
def ofPaths (files : List (String × String)) : FileTree := files.foldl addFile empty

/-- Go along the pieces of a path from a directory above the top. -/
def walkAbove : List String → FileEntry
  | [] => .unreadable
  | piece :: rest =>
    if piece = "" || piece = "." || piece = ".." then walkAbove rest else .absent

/-- Go along the pieces of a path from the directory at `here`. -/
def walk (tree : FileTree) (here : List String) : List String → FileEntry
  | [] => .unreadable
  | piece :: rest =>
    if piece = ".." && here.isEmpty then walkAbove rest
    else
      let next := step here piece
      match tree.files.lookup next with
      | some content => if rest.isEmpty then .text content else .absent
      | none => if next ∈ tree.directories then tree.walk next rest else .absent

/-- What stands at a path. It starts at the top of the tree, unless it begins with a slash. -/
def look (tree : FileTree) (path : String) : FileEntry :=
  if path = "" then .absent
  else if path.toList.head? = some '/' then walkAbove (path.splitOn "/")
  else tree.walk [] (path.splitOn "/")

end FileTree

end BindingIdl
