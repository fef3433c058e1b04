import BindingIdl.CommandLine.Run

/-!
# The program

Reads files from disk and hands everything else to `CommandLine.run`.
-/

namespace BindingIdl

/-- What stands at a path on disk. A path that goes through a file leads nowhere. -/
def lookOnDisk (path : String) : IO FileEntry := do
  try
    return .text (← IO.FS.readFile path)
  catch
    | .noFileOrDirectory .. => return .absent
    | .inappropriateType _ 20 _ => return .absent
    | _ => return .unreadable

/-- Run the program on the disk's files. -/
def runOnDisk (args : List String) : IO UInt32 := do
  let result ← CommandLine.run lookOnDisk args
  IO.print result.output
  return result.status.toUInt32

end BindingIdl

def main (args : List String) : IO UInt32 := BindingIdl.runOnDisk args
