/-!
Counts are written in decimal digits, with at most one `+` in front, and are below 2^64.
-/

namespace MaximalMunch

inductive CountFault
  | invalidDigit
  | tooLarge
  deriving DecidableEq, Repr

def CountFault.message : CountFault → String
  | .invalidDigit => "invalid digit found in string"
  | .tooLarge => "number too large to fit in target type"

def countLimit : Nat := 0x10000000000000000

def digitValue? (char : Char) : Option Nat :=
  if '0' ≤ char ∧ char ≤ '9' then some (char.toNat - '0'.toNat) else none

/-- Reads digits from left to right; whatever goes wrong first is reported. -/
def readDigits (value : Nat) : List Char → Except CountFault Nat
  | [] => .ok value
  | char :: rest =>
    match digitValue? char with
    | none => .error .invalidDigit
    | some digit =>
      let next := 10 * value + digit
      if next < countLimit then readDigits next rest else .error .tooLarge

def readCount : List Char → Except CountFault Nat
  | [] | ['+'] => .error .invalidDigit
  | '+' :: digits => readDigits 0 digits
  | digits => readDigits 0 digits

end MaximalMunch
