import MaximalMunch.Command.Run

/-!
The program: commands run on the files and the streams of the process.
-/

namespace MaximalMunch

/-- Errors of the system are numbered; some calls give the number with its sign turned. -/
def isErrorNumber (number code : UInt32) : Bool := code = number || code + number = 0

def FileFault.ofError : IO.Error → FileFault
  | .noFileOrDirectory .. => .notFound
  | .inappropriateType _ code _ =>
    if isErrorNumber 21 code then .isADirectory else .notADirectory
  | .invalidArgument _ code message =>
    if isErrorNumber 36 code then .nameTooLong else .other message
  | .resourceExhausted _ code message =>
    if isErrorNumber 28 code then .noSpace else .other message
  | error => .other (toString error)

def attempt {α : Type} (action : IO α) : IO (Except FileFault α) := do
  match ← action.toBaseIO with
  | .ok value => return .ok value
  | .error error => return .error (FileFault.ofError error)

partial def readAll (stream : IO.FS.Stream) (done : ByteArray) : IO ByteArray := do
  let chunk ← stream.read 65536
  if chunk.isEmpty then return done else readAll stream (done ++ chunk)

def processHost : Host IO where
  readFile path := attempt (IO.FS.readBinFile path)
  writeFile path content := attempt do
    IO.FS.withFile path .write fun handle => do
      handle.write content
      handle.flush
  readInput := do readAll (← IO.getStdin) .empty
  print text := do
    let stream ← IO.getStdout
    stream.putStr text
    stream.flush
  report text := do (← IO.getStderr).putStr text

end MaximalMunch

def main (words : List String) : IO UInt32 := do
  let exit ← MaximalMunch.processHost.interpret words
  return exit.code
