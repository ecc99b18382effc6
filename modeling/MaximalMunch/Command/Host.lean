import MaximalMunch.Bundle.Decode
import MaximalMunch.Bundle.Encode
import MaximalMunch.Command.Path

/-!
What a command needs from the world around it, and how source texts and bundles are kept there.
-/

namespace MaximalMunch

structure Host (m : Type → Type) where
  readFile : String → m (Except FileFault ByteArray)
  writeFile : String → ByteArray → m (Except FileFault Unit)
  readInput : m ByteArray
  print : String → m Unit
  report : String → m Unit

namespace Host

variable {m : Type → Type} [Monad m]

def fetch (host : Host m) (path : String) : ExceptT LexerError m ByteArray :=
  ExceptT.mk do
    let content ← host.readFile path
    return content.mapError .file

def decodeText (content : ByteArray) : Except LexerError String :=
  match String.fromUTF8? content with
  | some text => .ok text
  | none => .error (.file .invalidText)

def readSource (host : Host m) (path : String) : ExceptT LexerError m String := do
  let content ← if isStandardInput path then host.readInput else host.fetch path
  decodeText content

/-- How many bytes are held back before they are put into a file. -/
def heldBack : Nat := 8192

/-- A full file stops a long bundle while its form is made, a short one after that. -/
def saveFault (size : Nat) : FileFault → LexerError
  | .noSpace => if heldBack < size then .json (some .noSpace) else .file .noSpace
  | fault => .file fault

def saveBundle (host : Host m) (path : String) (bundle : Bundle) : ExceptT LexerError m Unit :=
  ExceptT.mk do
    let content := bundle.encode.toUTF8
    let result ← host.writeFile path content
    return result.mapError (saveFault content.size)

/-- A directory can be opened in place of a bundle, and fails when it is read. -/
def loadFault : FileFault → LexerError
  | .isADirectory => .json (some .isADirectory)
  | fault => .file fault

def loadBundle (host : Host m) (path : String) : ExceptT LexerError m Bundle := do
  let content ← host.readFile path
  match content with
  | .ok content => Bundle.load content
  | .error fault => throw (loadFault fault)

end Host

end MaximalMunch
