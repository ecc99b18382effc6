import MaximalMunch.Text.Quoted

/-!
What tokenizing an input produces.
-/

namespace MaximalMunch

structure Token where
  tag : String
  /-- The line counter when the token was emitted. -/
  line : Nat
  lexeme : String
  deriving DecidableEq, Repr

def Token.text (token : Token) : String :=
  token.tag ++ " " ++ toString token.line ++ " " ++ token.lexeme

structure LexicalError where
  /-- The number of characters before it. -/
  position : Nat
  line : Nat
  char : Char
  deriving DecidableEq, Repr

def LexicalError.message (error : LexicalError) : String :=
  "line " ++ toString error.line ++ ": no rule matches " ++ quoteChar error.char ++
    " at offset " ++ toString error.position

structure Stats where
  tokens : Nat := 0
  /-- Matches that emitted nothing. -/
  suppressed : Nat := 0
  /-- Characters taken by matches. -/
  matched : Nat := 0
  skipped : Nat := 0
  deriving DecidableEq, Repr

end MaximalMunch
