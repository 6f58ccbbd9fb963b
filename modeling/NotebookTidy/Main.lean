import NotebookTidy.Batch.Run

/-!
The command line on files of the disk. No engine can be started from here, so texts stay as they
are and nothing is written; a directory that is named counts as an empty one.
-/
namespace NotebookTidy.Batch
open Storage (FileTree OsFault)

/-- A tree with what lies at an absolute path. What exists but cannot be read is a directory. -/
def readInto (tree : FileTree) (p : Path) : IO FileTree := do
  let names := (Path.normalComponents p.components).filterMap fun c =>
    match c with
    | .name text => some text
    | _ => none
  try
    let bytes ← IO.FS.readBinFile p.text
    pure (tree.put (.file (.ofBytes bytes.toList)) names)
  catch
    | .noFileOrDirectory .. => pure tree
    | _ => pure (if (tree.get? names).isSome then tree else tree.put .empty names)

/-- Reads what a run asks for until it asks for nothing new. -/
partial def readAll (m : Machine) (inv : Invocation) (asked seen : List Path) (tree : FileTree) :
    IO FileTree := do
  let tree ← asked.foldlM readInto tree
  let seen := asked ++ seen
  match (inv.nextDemand m tree).filter (· ∉ seen) with
  | [] => pure tree
  | more => readAll m inv more seen tree

def runOnDisk (arguments : List String) : IO UInt32 := do
  let current : Path := ⟨toString (← IO.currentDir)⟩
  let m : Machine := ⟨current, fun _ _ _ => .error (.notStarted OsFault.noEntry.message)⟩
  let tree ← match Invocation.ofArguments arguments with
    | .ok inv => readAll m inv (inv.firstDemand current) [] .empty
    | .error _ => pure .empty
  let answer := run m tree arguments
  IO.print answer.stdout
  unless answer.failed.isEmpty do
    IO.eprintln ("\n" ++ toString answer.failed.length ++ " file(s) failed:")
    for p in answer.failed do
      IO.eprintln ("  " ++ p.text)
  return UInt32.ofNat answer.exit

end NotebookTidy.Batch

def main (arguments : List String) : IO UInt32 := NotebookTidy.Batch.runOnDisk arguments
