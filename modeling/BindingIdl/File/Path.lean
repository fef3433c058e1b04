/-!
# Paths as text

Directories are separated by slashes; several in a row count as one, and so does `.` between them.
A path keeps the spelling it was given as far as possible.
-/

namespace BindingIdl.Path

/-- A path taken apart: how it begins, and the pieces behind that. -/
structure Parts where
  /-- The root, an explicit `.`, or nothing. -/
  lead : String
  pieces : List String
deriving DecidableEq, Repr

def split (path : String) : Parts :=
  let pieces := path.splitOn "/"
  match pieces with
  | "." :: rest => ⟨".", if rest.isEmpty then [] else "" :: rest⟩
  | "" :: first :: rest => ⟨"/", first :: rest⟩
  | pieces => ⟨"", pieces⟩

def Parts.text (parts : Parts) : String := parts.lead ++ "/".intercalate parts.pieces

/-- Whether a piece adds nothing to a path. -/
def isIdle (piece : String) : Bool := piece = "" || piece = "."

/-- The pieces without the idle ones at the end. -/
def dropIdleEnd (pieces : List String) : List String :=
  (pieces.reverse.dropWhile isIdle).reverse

/-- The directory that a path names something in. The root is in none, and neither is nothing. -/
def parent? (path : String) : Option String :=
  let parts := split path
  match (dropIdleEnd parts.pieces).reverse with
  | _ :: above => some { parts with pieces := dropIdleEnd above.reverse : Parts }.text
  | [] => if parts.lead = "." then some "" else none

/-- The path of a file in a directory; the directory without a name is the current one. -/
def inDirectory (directory file : String) : String :=
  if directory = "" || directory.toList.getLast? = some '/' then directory ++ file
  else directory ++ "/" ++ file

/-- The path of a file beside the one at `path`. -/
def beside (path file : String) : String := inDirectory ((parent? path).getD ".") file

end BindingIdl.Path
