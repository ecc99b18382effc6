import MaximalMunch.Text.Utf8

/-!
Cutting a JSON text into tokens. Numbers and strings are read to what they denote, as far as a
natural number or a text denotes it.
-/

namespace MaximalMunch.Json

inductive Token
  | mark (char : Char)
  | null
  | bool (value : Bool)
  /-- A number; without a value unless it is written in digits alone. -/
  | number (value : Option Nat)
  /-- A string; without content if an escape or a stray byte in it is no character. -/
  | text (content : Option String)
  deriving DecidableEq, Repr

/-- What one place of a string denotes before surrogate escapes are paired. -/
inductive Letter
  | char (char : Char)
  | escape (codeUnit : Nat)
  | stray
  deriving DecidableEq, Repr

def hexValue? (char : Char) : Option Nat :=
  if '0' ≤ char ∧ char ≤ '9' then some (char.toNat - '0'.toNat)
  else if 'a' ≤ char ∧ char ≤ 'f' then some (char.toNat - 'a'.toNat + 10)
  else if 'A' ≤ char ∧ char ≤ 'F' then some (char.toNat - 'A'.toNat + 10)
  else none

def codeUnit? (a b c d : Option Char) : Option Nat := do
  let a ← hexValue? (← a)
  let b ← hexValue? (← b)
  let c ← hexValue? (← c)
  let d ← hexValue? (← d)
  return ((a * 16 + b) * 16 + c) * 16 + d

def shortEscape? : Char → Option Char
  | '"' => some '"'
  | '\\' => some '\\'
  | '/' => some '/'
  | 'b' => some '\x08'
  | 'f' => some '\x0c'
  | 'n' => some '\n'
  | 'r' => some '\r'
  | 't' => some '\t'
  | _ => none

/-- The letters up to the closing quote, put before those already `done`, and what follows it. -/
def readLetters (done : List Letter) : RawText → Option (List Letter × RawText)
  | some '"' :: rest => some (done.reverse, rest)
  | some '\\' :: some 'u' :: a :: b :: c :: d :: rest =>
    match codeUnit? a b c d with
    | some codeUnit => readLetters (.escape codeUnit :: done) rest
    | none => none
  | some '\\' :: some char :: rest =>
    match shortEscape? char with
    | some char => readLetters (.char char :: done) rest
    | none => none
  | some '\\' :: _ => none
  | some char :: rest =>
    if char.toNat < 0x20 then none else readLetters (.char char :: done) rest
  | none :: rest => readLetters (.stray :: done) rest
  | [] => none

def isHighSurrogate (codeUnit : Nat) : Bool := 0xD800 ≤ codeUnit && codeUnit < 0xDC00

def isLowSurrogate (codeUnit : Nat) : Bool := 0xDC00 ≤ codeUnit && codeUnit < 0xE000

/-- Pairs surrogates; one that is left alone denotes nothing. -/
def charsOf : List Letter → Option (List Char)
  | [] => some []
  | .char char :: rest => (charsOf rest).map (char :: ·)
  | .escape high :: .escape low :: rest =>
    if isHighSurrogate high then
      if isLowSurrogate low then
        let codePoint := 0x10000 + (high - 0xD800) * 0x400 + (low - 0xDC00)
        (charsOf rest).map (Char.ofNat codePoint :: ·)
      else none
    else if isLowSurrogate high then none
    else (charsOf (.escape low :: rest)).map (Char.ofNat high :: ·)
  | .escape codeUnit :: rest =>
    if isHighSurrogate codeUnit || isLowSurrogate codeUnit then none
    else (charsOf rest).map (Char.ofNat codeUnit :: ·)
  | .stray :: _ => none

def contentOf (letters : List Letter) : Option String := (charsOf letters).map String.ofList

def decimalValue? : Option Char → Option Nat
  | some char => if '0' ≤ char ∧ char ≤ '9' then some (char.toNat - '0'.toNat) else none
  | none => none

def readDigits (done : List Nat) : RawText → List Nat × RawText
  | [] => (done.reverse, [])
  | place :: rest =>
    match decimalValue? place with
    | some digit => readDigits (digit :: done) rest
    | none => (done.reverse, place :: rest)

def skipFraction : RawText → Option RawText
  | some '.' :: rest =>
    match readDigits [] rest with
    | ([], _) => none
    | (_, rest) => some rest
  | rest => some rest

def skipSign : RawText → RawText
  | some '+' :: rest => rest
  | some '-' :: rest => rest
  | rest => rest

def skipExponent : RawText → Option RawText
  | some 'e' :: rest | some 'E' :: rest =>
    match readDigits [] (skipSign rest) with
    | ([], _) => none
    | (_, rest) => some rest
  | rest => some rest

def valueOf (digits : List Nat) : Nat := digits.foldl (fun value digit => 10 * value + digit) 0

/-- A number without sign; a zero in front must stand alone. -/
def readUnsigned (text : RawText) : Option (Option Nat × RawText) := do
  let (digits, rest) := readDigits [] text
  if digits.isEmpty || (digits.head? == some 0 && digits.length != 1) then none
  else
    let final ← skipExponent (← skipFraction rest)
    let plain := rest.length == final.length
    return (if plain then some (valueOf digits) else none, final)

def readNumber : RawText → Option (Option Nat × RawText)
  | some '-' :: rest => (readUnsigned rest).map fun (_, final) => (none, final)
  | text => readUnsigned text

def afterWord? : List Char → RawText → Option RawText
  | [], rest => some rest
  | char :: word, some head :: rest => if char = head then afterWord? word rest else none
  | _ :: _, _ => none

def readToken (char : Char) (rest : RawText) : Option (Token × RawText) :=
  if char ∈ ['[', ']', '\x7b', '\x7d', ',', ':'] then some (.mark char, rest)
  else if char = '"' then do
    let (letters, rest) ← readLetters [] rest
    return (.text (contentOf letters), rest)
  else if char = 'n' then (afterWord? "ull".toList rest).map fun rest => (.null, rest)
  else if char = 't' then (afterWord? "rue".toList rest).map fun rest => (.bool true, rest)
  else if char = 'f' then (afterWord? "alse".toList rest).map fun rest => (.bool false, rest)
  else (readNumber (some char :: rest)).map fun (value, rest) => (.number value, rest)

def isSpace (char : Char) : Bool := char ∈ [' ', '\t', '\n', '\r']

end MaximalMunch.Json
