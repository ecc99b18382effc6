/-!
Text as a terminal shows it. Control characters, and the sequences an escape begins, steer the
terminal and are not seen.
-/

namespace MaximalMunch

inductive TerminalState
  | text
  | escape
  /-- After an escape, marks that come before the character it ends with. -/
  | marks
  | control
  | device
  | deviceParameters
  | deviceMarks
  /-- The inside of a string that a string terminator ends. -/
  | string
  /-- A command to the surrounding system, such as a window title, that a bell ends. -/
  | command
  deriving DecidableEq, Repr

namespace TerminalState

def isMark (char : Char) : Bool := ' ' ≤ char && char ≤ '/'

def isParameter (char : Char) : Bool := '0' ≤ char && char ≤ '?'

def isPrivateParameter (char : Char) : Bool := '<' ≤ char && char ≤ '?'

def isFinal (char : Char) : Bool := '@' ≤ char && char ≤ '~'

/-- Whether the string terminator is among the bytes of the character in UTF-8. -/
def holdsTerminator (char : Char) : Bool := (String.utf8EncodeChar char).contains 0x9c

def introduced : Char → TerminalState
  | '[' => .control
  | ']' => .command
  | 'P' => .device
  | 'X' => .string
  | '^' => .string
  | '_' => .string
  | char => if isParameter char || isFinal char then .text else .escape

/-- Cancel and substitute break a sequence off, and an escape begins a new one. -/
def next (state : TerminalState) (char : Char) : TerminalState :=
  if char = '\x18' ∨ char = '\x1a' then .text
  else if char = '\x1b' then .escape
  else
    match state with
    | .text => .text
    | .escape => if isMark char then .marks else introduced char
    | .marks => if isParameter char || isFinal char then .text else .marks
    | .control => if isFinal char then .text else .control
    | .device =>
      if isMark char then .deviceMarks
      else if isParameter char then .deviceParameters
      else if isFinal char then .string
      else .device
    | .deviceParameters =>
      if isMark char then .deviceMarks
      else if isPrivateParameter char || isFinal char then .string
      else .deviceParameters
    | .deviceMarks => if isParameter char || isFinal char then .string else .deviceMarks
    | .string => if holdsTerminator char then .text else .string
    | .command => if char = '\x07' then .text else .command

def isLayout : Char → Bool
  | '\t' | '\n' | '\x0c' | '\r' => true
  | _ => false

/-- A short sequence lets the layout through, a string swallows it. -/
def shows : TerminalState → Char → Bool
  | .text, char => isLayout char || (' ' ≤ char && char ≠ '\x7f')
  | .escape, char | .marks, char | .control, char => isLayout char
  | _, _ => false

end TerminalState

structure Terminal where
  state : TerminalState := .text
  showing : Bool := true
  shown : List Char := []
  deriving DecidableEq, Repr

namespace Terminal

def shows (terminal : Terminal) (char : Char) : Bool :=
  (if terminal.showing then TerminalState.text else terminal.state).shows char

/--
Takes one more character. Once something is shown, all that follows is text up to the first
character not shown; there a sequence goes on that was left inside by its layout, unless there
was a character beyond ASCII in between.
-/
def take (terminal : Terminal) (char : Char) : Terminal :=
  if terminal.shows char then
    { state := if char.toNat < 128 then terminal.state else .text
      showing := true
      shown := char :: terminal.shown }
  else
    { state := terminal.state.next char
      showing := false
      shown := terminal.shown }

end Terminal

def visibleText (text : String) : String :=
  String.ofList (text.toList.foldl Terminal.take {}).shown.reverse

end MaximalMunch
