import Lossless.Command.Run

/-! The program: the command line on the files of the machine. -/

namespace Lossless

def FileFault.ofIOError : IO.Error → FileFault
  | .noFileOrDirectory .. => .missing
  | .noSuchThing .. => .missing
  | .inappropriateType .. => .isADirectory
  | e => .other (toString e)

/-- The files of the machine. -/
def FileSystem.machine : FileSystem IO where
  resolve path := do
    try
      let real ← IO.FS.realPath path
      if ← real.pathExists then return .ok (Path.parts real.toString)
      else return .error .missing
    catch e => return .error (.ofIOError e)
  isFile path := do
    try
      let real ← IO.FS.realPath path
      return (← real.pathExists) && !(← real.isDir)
    catch _ => return false
  isThere path := do
    try
      (← IO.FS.realPath path).pathExists
    catch _ => return false
  read path := do
    try
      return .ok (← IO.FS.readFile path)
    catch e => return .error (.ofIOError e)

end Lossless

open Lossless in
def main (args : List String) : IO UInt32 := do
  let outcome ← Command.execute FileSystem.machine args
  (← IO.getStdout).putStr outcome.stdout
  (← IO.getStderr).putStr outcome.stderr
  return outcome.exit.toUInt32
