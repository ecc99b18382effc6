import MaximalMunch.Bundle.Basic
import MaximalMunch.Specification.Basic

/-!
Everything that can stop the making, the loading or the use of a lexer.
-/

namespace MaximalMunch

inductive FileFault
  | notFound
  | notADirectory
  | isADirectory
  | nameTooLong
  | nulInPath
  | noSpace
  | invalidText
  | other (message : String)
  deriving DecidableEq, Repr

def FileFault.message : FileFault → String
  | .notFound => "No such file or directory (os error 2)"
  | .notADirectory => "Not a directory (os error 20)"
  | .isADirectory => "Is a directory (os error 21)"
  | .nameTooLong => "File name too long (os error 36)"
  | .nulInPath => "file name contained an unexpected NUL byte"
  | .noSpace => "No space left on device (os error 28)"
  | .invalidText => "stream did not contain valid UTF-8"
  | .other message => message

inductive LexerError
  | pattern (fault : PatternError)
  | specification (error : SpecificationError)
  | bundle (fault : BundleFault)
  | file (fault : FileFault)
  /-- What should be the JSON form of a bundle is not, or its file fails before its end. -/
  | json (fault : Option FileFault)
  deriving DecidableEq, Repr

def LexerError.message : LexerError → String
  | .pattern fault => "pattern error: " ++ fault.message
  | .specification error => "definition error: " ++ error.message
  | .bundle fault => "invalid bundle: " ++ fault.message
  | .file fault => "i/o error: " ++ fault.message
  | .json none => "serialization error: not the JSON form of a bundle"
  | .json (some fault) => "serialization error: " ++ fault.message

end MaximalMunch
