import MaximalMunch.Session.Run
import MaximalMunch.Specification.Compile
import MaximalMunch.Text.Terminal

/-!
The log of a command. It is an account beside the work: the events are read off what the making
and the running of a lexer are given and what they give back.
-/

namespace MaximalMunch

inductive Severity
  | warn
  | debug
  | trace
  deriving DecidableEq, Repr

def Severity.verbosity : Severity → Nat
  | .warn => 0
  | .debug => 2
  | .trace => 3

def Severity.label : Severity → String
  | .warn => "WARN "
  | .debug => "DEBUG"
  | .trace => "TRACE"

inductive LogEvent
  | parsed (definitions states rules : Nat)
  | resolved (definitions : Nat)
  | compiled (pattern : String) (fragment : Fragment)
  | laidOut (rules states nodes : Nat)
  | saved (path : String) (nodes rules : Nat)
  | loaded (path : String) (nodes rules : Nat)
  | entered (state : String)
  | emitted (token : Token)
  | skipped (error : LexicalError)
  deriving DecidableEq, Repr

namespace LogEvent

def severity : LogEvent → Severity
  | skipped _ => .warn
  | compiled .. | entered _ | emitted _ => .trace
  | _ => .debug

def scope : LogEvent → String
  | parsed .. | laidOut .. => "lexgen_core::definitions"
  | resolved _ => "lexgen_core::normalize"
  | compiled .. => "lexgen_core::compiler"
  | saved .. | loaded .. => "lexgen_core::bundle"
  | entered _ | emitted _ | skipped _ => "lexgen_core::tokenizer"

def bundleText (path : String) (nodes rules : Nat) : String :=
  path ++ " (" ++ toString nodes ++ " states, " ++ toString rules ++ " rules)"

def text : LogEvent → String
  | parsed definitions states rules =>
    "parsed " ++ toString definitions ++ " regular definitions, " ++ toString states ++
      " states, " ++ toString rules ++ " rules"
  | resolved definitions => "resolved " ++ toString definitions ++ " regular definitions"
  | compiled pattern fragment =>
    "compiled `" ++ pattern ++ "` into states " ++ toString fragment.entry ++ ".." ++
      toString fragment.accept
  | laidOut rules states nodes =>
    "compiled " ++ toString rules ++ " rules in " ++ toString states ++ " states into " ++
      toString nodes ++ " graph states"
  | saved path nodes rules => "saved bundle to " ++ bundleText path nodes rules
  | loaded path nodes rules => "loaded bundle from " ++ bundleText path nodes rules
  | entered state => "entering lexer state `" ++ state ++ "`"
  | emitted token => token.tag ++ " " ++ toString token.line ++ " " ++ quoteText token.lexeme
  | skipped error => error.message

/-- Text after a line feed is set off from the beginning of the line. -/
def indented (text : String) : String :=
  String.ofList (text.toList.flatMap fun char =>
    if char = '\n' then "\n    ".toList else [char])

/-- The log may be read on a terminal, and no pattern or path may steer that. -/
def line (event : LogEvent) : String :=
  visibleText
    ("[" ++ event.severity.label ++ " " ++ event.scope ++ "] " ++ indented event.text ++ "\n")

def lines (verbosity : Nat) (events : List LogEvent) : String :=
  String.join ((events.filter (·.severity.verbosity ≤ verbosity)).map line)

end LogEvent

def Graph.compileEvents (graph : Graph) : List RuleSpec → List LogEvent
  | [] => []
  | rule :: rest =>
    match graph.compile rule.pattern with
    | (_, .error _) => []
    | (graph, .ok fragment) => .compiled rule.pattern fragment :: graph.compileEvents rest

namespace Specification

def parsedEvent (specification : Specification) : LogEvent :=
  .parsed specification.definitions.size specification.states.length specification.rules.length

def compileEvents (specification : Specification) : List LogEvent :=
  match specification.resolvedDefinitions with
  | .error _ => []
  | .ok definitions =>
    .resolved definitions.size ::
      Graph.compileEvents { definitions := definitions } specification.rules

def layoutEvents (specification : Specification) : List LogEvent :=
  match specification.layOut with
  | .error _ => []
  | .ok (graph, _) =>
    [.laidOut specification.rules.length specification.states.length graph.size]

end Specification

def generationEvents (source : String) : List LogEvent :=
  match Specification.ofText source with
  | .error _ => []
  | .ok specification =>
    specification.parsedEvent :: specification.compileEvents ++ specification.layoutEvents

def Outcome.events : Outcome → List LogEvent
  | .emitted token => [.emitted token]
  | .suppressed => []
  | .skipped error => [.skipped error]

/-- Every switch of state shows, then what became of the match. -/
def Cycle.events (cycle : Cycle) : List LogEvent :=
  let targets := (cycle.found.map fun found => found.rule.targets).getD []
  targets.map .entered ++ cycle.outcome.events

def Session.events (session : Session) (cycles : List Cycle) : List LogEvent :=
  .entered session.state :: cycles.flatMap Cycle.events

end MaximalMunch
