/-!
What can be wrong with a pattern text or with the regular definitions it refers to.
-/

namespace MaximalMunch

inductive FaultKind
  | unclosedGroup
  | unmatchedParen
  | unclosedReference
  | danglingEscape
  deriving DecidableEq, Repr

def FaultKind.message : FaultKind → String
  | .unclosedGroup => "unclosed group"
  | .unmatchedParen => "unmatched `)`"
  | .unclosedReference => "unclosed regular definition reference"
  | .danglingEscape => "dangling escape at end of pattern"

inductive PatternError
  | malformed (pattern : String) (position : Nat) (kind : FaultKind)
  | undefinedReference (name : String)
  | cyclicDefinition (name : String)
  deriving DecidableEq, Repr

def PatternError.message : PatternError → String
  | .malformed pattern position kind =>
    "malformed pattern `" ++ pattern ++ "` at position " ++ toString position ++ ": " ++
      kind.message
  | .undefinedReference name => "undefined regular definition '\x7b" ++ name ++ "\x7d'"
  | .cyclicDefinition name => "cyclic regular definition '\x7b" ++ name ++ "\x7d'"

end MaximalMunch
