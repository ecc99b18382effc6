import MaximalMunch.Command.Basic

/-!
Reading the words of a command line. Words are taken from left to right, and the first that cannot
be taken, or that asks for help or for the version, decides.
-/

namespace MaximalMunch

inductive Verb
  | generate
  | analyze
  | run
  deriving DecidableEq, Repr

def Verb.name : Verb → String
  | .generate => "generate"
  | .analyze => "analyze"
  | .run => "run"

def Verb.all : List Verb := [.generate, .analyze, .run]

def Verb.ofName? (name : String) : Option Verb := Verb.all.find? fun verb => verb.name = name

def Verb.maxOperands : Verb → Nat
  | .generate => 1
  | .analyze | .run => 2

inductive Switch
  | help
  | version
  | verbose
  | strict
  | summary
  | output
  deriving DecidableEq, Repr

def Switch.name : Switch → String
  | .help => "help"
  | .version => "version"
  | .verbose => "verbose"
  | .strict => "strict"
  | .summary => "summary"
  | .output => "output"

def Switch.letter? : Switch → Option Char
  | .help => some 'h'
  | .version => some 'V'
  | .verbose => some 'v'
  | .output => some 'o'
  | .strict | .summary => none

def switches : Option Verb → List Switch
  | none => [.help, .version, .verbose]
  | some .generate => [.help, .verbose, .output]
  | some .analyze | some .run => [.help, .verbose, .strict, .summary]

structure CommandLine where
  verb : Option Verb := none
  verbosity : Nat := 0
  strict : Bool := false
  summary : Bool := false
  output : Option String := none
  operands : List String := []
  awaiting : Bool := false
  plain : Bool := false
  deriving DecidableEq, Repr

namespace CommandLine

def setOutput (line : CommandLine) (path : String) : Except Refusal CommandLine :=
  if path = "" ∨ line.output.isSome then .error .misuse
  else .ok { line with output := some path, awaiting := false }

def addOperand (line : CommandLine) (word : String) : Except Refusal CommandLine :=
  let limit := (line.verb.map Verb.maxOperands).getD 0
  if word = "" ∨ limit ≤ line.operands.length then .error .misuse
  else .ok { line with operands := line.operands ++ [word] }

/-- Only verbosity can be asked for more than once. -/
def turn (line : CommandLine) : Switch → Except Refusal CommandLine
  | .help => .error .help
  | .version => .error .version
  | .verbose => .ok { line with verbosity := line.verbosity + 1 }
  | .strict => if line.strict then .error .misuse else .ok { line with strict := true }
  | .summary => if line.summary then .error .misuse else .ok { line with summary := true }
  | .output => .ok { line with awaiting := true }

def readName (line : CommandLine) (text : List Char) : Except Refusal CommandLine :=
  let name := text.takeWhile (· ≠ '=')
  match (switches line.verb).find? (·.name.toList = name), text.drop name.length with
  | none, _ => .error .misuse
  | some switch, [] => line.turn switch
  | some switch, _ :: value =>
    if switch = .output then line.setOutput (String.ofList value) else .error .misuse

/-- Switches by their letters. What follows the letter for the output is its path. -/
def readLetters (line : CommandLine) : List Char → Except Refusal CommandLine
  | [] => .ok line
  | letter :: rest =>
    match (switches line.verb).find? (·.letter? = some letter) with
    | none => .error .misuse
    | some .output =>
      match rest with
      | [] => line.turn .output
      | '=' :: path => line.setOutput (String.ofList path)
      | path => line.setOutput (String.ofList path)
    | some switch => do
      let line ← line.turn switch
      line.readLetters rest

def readWord (line : CommandLine) (word : String) : Except Refusal CommandLine :=
  match line.plain, line.awaiting, word.toList with
  | true, _, _ => line.addOperand word
  | false, true, '-' :: _ :: _ => .error .misuse
  | false, true, _ => line.setOutput word
  | false, false, ['-', '-'] => .ok { line with plain := true }
  | false, false, '-' :: '-' :: text => line.readName text
  | false, false, '-' :: letter :: rest => line.readLetters (letter :: rest)
  | false, false, _ => line.addOperand word

def reporting (line : CommandLine) : Reporting := ⟨line.strict, line.summary⟩

def defaultOutput : String := "lexer.json"

def finish (line : CommandLine) : Except Refusal Command :=
  if line.awaiting then .error .misuse
  else
    match line.verb, line.operands with
    | some .generate, [definitions] =>
      .ok (.generate definitions (line.output.getD defaultOutput))
    | some .analyze, bundle :: input => .ok (.analyze bundle input.head? line.reporting)
    | some .run, definitions :: input => .ok (.run definitions input.head? line.reporting)
    | _, _ => .error .misuse

end CommandLine

def readHelp : List String → Refusal
  | [] => .help
  | [name] => if name = "help" ∨ (Verb.ofName? name).isSome then .help else .misuse
  | _ => .misuse

/-- Verbosity asked for after the verb takes the place of what was asked for before it. -/
def readAfterVerb (verb : Verb) (verbosity : Nat) (words : List String) :
    Except Refusal Invocation := do
  let line ← words.foldlM CommandLine.readWord { verb := some verb }
  let command ← line.finish
  return ⟨if line.verbosity = 0 then verbosity else line.verbosity, command⟩

def readFromVerb (line : CommandLine) : List String → Except Refusal Invocation
  | [] => .error .misuse
  | word :: rest =>
    match Verb.ofName? word with
    | some verb => readAfterVerb verb line.verbosity rest
    | none =>
      if word = "help" then .error (readHelp rest)
      else do
        let line ← line.readWord word
        if line.plain then .error .misuse else readFromVerb line rest

def Invocation.ofWords (words : List String) : Except Refusal Invocation := readFromVerb {} words

end MaximalMunch
