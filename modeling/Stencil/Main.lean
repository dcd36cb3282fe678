import Stencil.CommandLine.Run

/-!
# The program
-/
namespace Stencil.Program

/-- A text in UTF-8, or what is wrong with it. -/
def decode (bytes : ByteArray) : Except String String :=
  match String.fromUTF8? bytes with
  | some text => .ok text
  | none => .error "stream did not contain valid UTF-8"

def describe : IO.Error → String
  | .noFileOrDirectory _ _ _ => "No such file or directory (os error 2)"
  | .permissionDenied _ _ _ => "Permission denied (os error 13)"
  | .inappropriateType _ _ _ => "Is a directory (os error 21)"
  | e => toString e

/-- The text that an action reads. -/
def readText (action : IO ByteArray) : IO (Except String String) := do
  try
    pure (decode (← action))
  catch e =>
    pure (.error (describe e))

partial def drain (stream : IO.FS.Stream) (before : ByteArray) : IO ByteArray := do
  let bytes ← stream.read 65536
  if bytes.isEmpty then pure before else drain stream (before ++ bytes)

def surroundings : IO (CommandLine.Surroundings IO) := do
  let place := Path.root.resolve (← IO.currentDir).toString
  pure ⟨place, fun path => readText (IO.FS.readBinFile path),
    readText (do drain (← IO.getStdin) ByteArray.empty)⟩

end Stencil.Program

/-- Run the command line and write out what comes of it. -/
def main (args : List String) : IO UInt32 := do
  let outcome ← Stencil.CommandLine.run (← Stencil.Program.surroundings) args
  (← IO.getStdout).putStr outcome.stdout
  (← IO.getStderr).putStr outcome.stderr
  pure outcome.code
