import MaximalMunch.Command.Arguments
import MaximalMunch.Command.Host
import MaximalMunch.Command.Log

/-!
Running commands on a host. Tokens go to the standard output, everything else that is told goes
to the standard error stream.
-/

namespace MaximalMunch

def usage : String := String.join [
  "Usage: lexgen [-v]... generate <definitions> [-o <output>]\n",
  "       lexgen [-v]... analyze <bundle> [<input>] [--strict] [--summary]\n",
  "       lexgen [-v]... run <definitions> [<input>] [--strict] [--summary]\n"]

def versionText : String := "lexgen 0.1.0\n"

def standardInput : String := "-"

inductive Exit
  | success
  | failure
  | refused
  deriving DecidableEq, Repr

def Exit.code : Exit → UInt32
  | .success => 0
  | .failure => 1
  | .refused => 2

def TokenStream.text (stream : TokenStream) : String :=
  String.join (stream.tokens.map fun token => token.text ++ "\n")

def TokenStream.summary (stream : TokenStream) : String := String.join [
  "Summary:\n",
  "  Tokens:     " ++ toString stream.stats.tokens ++ "\n",
  "  Suppressed: " ++ toString stream.stats.suppressed ++ "\n",
  "  Matched:    " ++ toString stream.stats.matched ++ " chars\n",
  "  Errors:     " ++ toString stream.errors.length ++ "\n"]

def TokenStream.failureText (stream : TokenStream) : String :=
  "Failed: " ++ toString stream.errors.length ++ " lexical error(s)\n"

def TokenStream.exit (stream : TokenStream) (strict : Bool) : Exit :=
  if strict && !stream.errors.isEmpty then .refused else .success

def TokenStream.remarks (stream : TokenStream) (reporting : Reporting) : String :=
  (if reporting.summary then stream.summary else "") ++
    match stream.exit reporting.strict with
    | .refused => stream.failureText
    | _ => ""

def Bundle.ruleCount (bundle : Bundle) : Nat := bundle.states.ruleCount

def writtenText (path : String) (bundle : Bundle) : String :=
  "Wrote " ++ path ++ " (" ++ toString bundle.ruleCount ++ " rules, " ++
    toString bundle.graph.size ++ " graph states)\n"

namespace Host

variable {m : Type → Type} [Monad m]

def log (host : Host m) (verbosity : Nat) (events : List LogEvent) : m Unit :=
  host.report (LogEvent.lines verbosity events)

def generateFrom (host : Host m) (verbosity : Nat) (definitions : String) :
    ExceptT LexerError m Bundle := do
  let source ← host.readSource definitions
  host.log verbosity (generationEvents source)
  generate source

def analyze (host : Host m) (verbosity : Nat) (bundle : Bundle) (input : Option String)
    (reporting : Reporting) : ExceptT LexerError m Exit := do
  let text ← host.readSource (input.getD standardInput)
  let session ← Session.start bundle text
  let run := session.drain bundle
  host.log verbosity (session.events run.1)
  let stream := TokenStream.ofRun run
  host.print stream.text
  host.report (stream.remarks reporting)
  return stream.exit reporting.strict

def execute (host : Host m) (verbosity : Nat) : Command → ExceptT LexerError m Exit
  | .generate definitions output => do
    let bundle ← host.generateFrom verbosity definitions
    host.saveBundle output bundle
    host.log verbosity [.saved output bundle.graph.size bundle.ruleCount]
    host.report (writtenText output bundle)
    return .success
  | .analyze path input reporting => do
    let bundle ← host.loadBundle path
    host.log verbosity [.loaded path bundle.graph.size bundle.ruleCount]
    host.analyze verbosity bundle input reporting
  | .run definitions input reporting => do
    let bundle ← host.generateFrom verbosity definitions
    host.analyze verbosity bundle input reporting

def perform (host : Host m) (invocation : Invocation) : m Exit := do
  match ← (host.execute invocation.verbosity invocation.command).run with
  | .ok exit => return exit
  | .error error =>
    host.report ("Error: " ++ error.message ++ "\n")
    return .failure

def refuse (host : Host m) : Refusal → m Exit
  | .help => do
    host.print usage
    return .success
  | .version => do
    host.print versionText
    return .success
  | .misuse => do
    host.report usage
    return .refused

def interpret (host : Host m) (words : List String) : m Exit :=
  match Invocation.ofWords words with
  | .ok invocation => host.perform invocation
  | .error refusal => host.refuse refusal

end Host

end MaximalMunch
