/-!
Writing JSON texts without any space.
-/

namespace MaximalMunch.Json.Literal

def natural (value : Nat) : List Char := Nat.toDigits 10 value

def escaped (char : Char) : List Char :=
  match char with
  | '"' => ['\\', '"']
  | '\\' => ['\\', '\\']
  | '\x08' => ['\\', 'b']
  | '\x0c' => ['\\', 'f']
  | '\n' => ['\\', 'n']
  | '\r' => ['\\', 'r']
  | '\t' => ['\\', 't']
  | char =>
    if char.toNat < 0x20 then
      ['\\', 'u', '0', '0', (char.toNat / 16).digitChar, (char.toNat % 16).digitChar]
    else [char]

def string (content : List Char) : List Char := '"' :: content.flatMap escaped ++ ['"']

def commaSeparated : List (List Char) → List Char
  | [] => []
  | [item] => item
  | item :: rest => item ++ ',' :: commaSeparated rest

def array (items : List (List Char)) : List Char := '[' :: commaSeparated items ++ [']']

def field (name : String) (value : List Char) : List Char := string name.toList ++ ':' :: value

def object (fields : List (String × List Char)) : List Char :=
  '\x7b' :: commaSeparated (fields.map fun (name, value) => field name value) ++ ['\x7d']

end MaximalMunch.Json.Literal
