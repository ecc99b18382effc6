/-!
Texts as they come from outside, in bytes. A byte that belongs to no character of well-formed
UTF-8 is kept as a gap.
-/

namespace MaximalMunch

/-- A text in which a stray byte stands as `none`. -/
abbrev RawText := List (Option Char)

def decodeFrom (bytes : ByteArray) (start : Nat) (done : RawText) : RawText :=
  if start < bytes.size then
    match bytes.utf8DecodeChar? start with
    | some char =>
      have := char.utf8Size_pos
      decodeFrom bytes (start + char.utf8Size) (some char :: done)
    | none => decodeFrom bytes (start + 1) (none :: done)
  else done.reverse
termination_by bytes.size - start

def decodeUtf8 (bytes : ByteArray) : RawText := decodeFrom bytes 0 []

end MaximalMunch
