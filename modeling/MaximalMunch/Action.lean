import MaximalMunch.Text.Count
import MaximalMunch.Text.WhiteSpace

/-!
Actions that a rule runs when it matches, and the lines they are written as.
-/

namespace MaximalMunch

inductive Action
  | switchState (target : String)
  /-- Keep only so many characters of the match. -/
  | goBack (count : Nat)
  | suppress
  | incrementLine
  deriving DecidableEq, Repr

def switchKeyword : String := "UDJI_U_STANJE"
def goBackKeyword : String := "VRATI_SE"
def lineKeyword : String := "NOVI_REDAK"
def suppressKeyword : String := "-"

/-- Written in place of a lexical unit when a rule emits nothing. -/
def noUnit : String := "-"

inductive ActionFault
  | unsupported (keyword : String)
  | missingArgument (keyword : String)
  | badCount (word : String) (fault : CountFault)
  | extraArgument (keyword word : String)
  deriving DecidableEq, Repr

namespace ActionFault

def invalidArgument (keyword reason : String) : String :=
  "invalid argument for `" ++ keyword ++ "`: " ++ reason

def message : ActionFault → String
  | .unsupported keyword => "action `" ++ keyword ++ "` is not supported"
  | .missingArgument keyword => invalidArgument keyword "missing argument"
  | .badCount word fault =>
    invalidArgument goBackKeyword
      ("`" ++ word ++ "` is not a character count (" ++ fault.message ++ ")")
  | .extraArgument keyword word => invalidArgument keyword ("unexpected argument `" ++ word ++ "`")

end ActionFault

namespace Action

def readKeyword (keyword : String) (arguments : List String) :
    Except ActionFault (Action × List String) :=
  if keyword = switchKeyword then
    match arguments with
    | [] => .error (.missingArgument keyword)
    | target :: extra => .ok (.switchState target, extra)
  else if keyword = goBackKeyword then
    match arguments with
    | [] => .error (.missingArgument keyword)
    | word :: extra =>
      match readCount word.toList with
      | .ok count => .ok (.goBack count, extra)
      | .error fault => .error (.badCount word fault)
  else if keyword = lineKeyword then .ok (.incrementLine, arguments)
  else if keyword = suppressKeyword then .ok (.suppress, arguments)
  else .error (.unsupported keyword)

def parse (text : List Char) : Except ActionFault Action := do
  let line := (words text).map String.ofList
  let keyword := line.headD ""
  let (action, extra) ← readKeyword keyword line.tail
  match extra with
  | [] => .ok action
  | word :: _ => .error (.extraArgument keyword word)

def text : Action → String
  | .switchState target => switchKeyword ++ " " ++ target
  | .goBack count => goBackKeyword ++ " " ++ toString count
  | .suppress => suppressKeyword
  | .incrementLine => lineKeyword

end Action

end MaximalMunch
