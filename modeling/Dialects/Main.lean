import Dialects.CommandLine.Run

/-!
# The program

Reads the source that the arguments name, and writes the answer.
-/

namespace Dialects.CommandLine

/-- Whether the code of an error is a given one. Some errors carry it negated. -/
def isCode (code n : UInt32) : Bool := code == n || code == 0 - n

/-- Why a file could not be read. -/
def Unreadable.ofError : IO.Error → Unreadable
  | .noFileOrDirectory .. => .missing
  | .permissionDenied .. => .denied
  | e@(.inappropriateType _ code _) =>
    if isCode code 21 then .isDirectory
    else if isCode code 20 then .notInDirectory
    else .other (toString e)
  | e@(.invalidArgument _ code _) =>
    if isCode code 36 then .nameTooLong else .other (toString e)
  | e => .other (toString e)

/-- Reads a whole stream. -/
partial def readAll (stream : IO.FS.Stream) (bytes : ByteArray) : IO ByteArray := do
  let chunk ← stream.read 65536
  if chunk.isEmpty then return bytes else readAll stream (bytes ++ chunk)

/-- Reads a source from where it is. -/
def readOrigin : Origin → IO (Except Unreadable String)
  | .argument text => return .ok text
  | .standardInput => do
    try return decodeText (← readAll (← IO.getStdin) .empty)
    catch e => return .error (.ofError e)
  | .file path => do
    try return decodeText (← IO.FS.readBinFile path)
    catch e => return .error (.ofError e)

end Dialects.CommandLine

open Dialects.CommandLine in
def main (args : List String) : IO UInt32 := do
  let answer ← (Request.ofArguments args).answer readOrigin
  IO.print answer.output
  IO.eprint answer.errors
  return answer.code.toUInt32
