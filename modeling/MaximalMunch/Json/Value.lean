import MaximalMunch.Json.Lexer

/-!
JSON values, built from tokens with an explicit stack of the arrays and objects still open.
-/

namespace MaximalMunch

inductive Json
  | null
  | bool (value : Bool)
  /-- Without a value unless the number is written in digits alone. -/
  | number (value : Option Nat)
  | text (content : Option String)
  | array (items : List Json)
  /-- Fields in the order they were written, repeated names included. -/
  | object (fields : List (Option String × Json))
  deriving Repr

namespace Json

/-- An array or object that waits for a value; what it has so far is kept latest first. -/
inductive Frame
  | array (items : List Json)
  | object (fields : List (Option String × Json)) (name : Option String)

/-- Puts a finished value into the innermost open frame and goes on to the next, if a comma asks. -/
def build (stack : List Frame) : Option Json → List Token → Option Json
  | none, .null :: rest => build stack (some .null) rest
  | none, .bool value :: rest => build stack (some (.bool value)) rest
  | none, .number value :: rest => build stack (some (.number value)) rest
  | none, .text content :: rest => build stack (some (.text content)) rest
  | none, .mark '[' :: .mark ']' :: rest => build stack (some (.array [])) rest
  | none, .mark '[' :: rest => build (.array [] :: stack) none rest
  | none, .mark '\x7b' :: .mark '\x7d' :: rest => build stack (some (.object [])) rest
  | none, .mark '\x7b' :: .text name :: .mark ':' :: rest =>
    build (.object [] name :: stack) none rest
  | none, _ => none
  | some value, tokens =>
    match stack, tokens with
    | [], [] => some value
    | .array items :: stack, .mark ',' :: rest => build (.array (value :: items) :: stack) none rest
    | .array items :: stack, .mark ']' :: rest =>
      build stack (some (.array (value :: items).reverse)) rest
    | .object fields name :: stack, .mark ',' :: .text next :: .mark ':' :: rest =>
      build (.object ((name, value) :: fields) next :: stack) none rest
    | .object fields name :: stack, .mark '\x7d' :: rest =>
      build stack (some (.object ((name, value) :: fields).reverse)) rest
    | _, _ => none

def read (text : RawText) : Option Json := do
  let tokens ← tokens? text
  build [] none tokens

end Json

end MaximalMunch
