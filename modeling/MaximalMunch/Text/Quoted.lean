import MaximalMunch.Text.GraphemeExtend
import MaximalMunch.Text.Unprintable

/-!
Quoting of text in messages. Inside quotes, what would not show by itself is written by its code
point in braces, a few controls have letters, and the quote itself takes a backslash.
-/

namespace MaximalMunch

def codePointText (char : Char) : List Char :=
  "\\u\x7b".toList ++ Nat.toDigits 16 char.toNat ++ ['\x7d']

def quotedChar (quote char : Char) : List Char :=
  if char = quote then ['\\', quote]
  else
    match char with
    | '\x00' => ['\\', '0']
    | '\t' => ['\\', 't']
    | '\r' => ['\\', 'r']
    | '\n' => ['\\', 'n']
    | '\\' => ['\\', '\\']
    | char => if isUnprintable char || isGraphemeExtend char then codePointText char else [char]

def quoted (quote : Char) (text : List Char) : String :=
  String.ofList (quote :: text.flatMap (quotedChar quote) ++ [quote])

def quoteChar (char : Char) : String := quoted '\'' [char]

def quoteText (text : String) : String := quoted '"' text.toList

end MaximalMunch
