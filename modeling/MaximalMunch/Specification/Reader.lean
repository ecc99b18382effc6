import MaximalMunch.Specification.Basic
import MaximalMunch.Text.Lines

/-!
Reading a specification from its text. Blank lines separate nothing and are dropped; every error
carries the number its line has in the text.

  {name} pattern        regular definitions
  %X state state        lexer states, the first one starts
  %L unit unit          lexical units
  <state>pattern        a rule: its state and pattern,
  {
  unit                  its lexical unit,
  action                its actions
  }
-/

namespace MaximalMunch

def splitAtFirst (mark : Char) : List Char → Option (List Char × List Char)
  | [] => none
  | char :: rest =>
    if char = mark then some ([], rest)
    else (splitAtFirst mark rest).map fun cut => (char :: cut.1, cut.2)

namespace Specification

abbrev Reading (α : Type) := Except SpecificationError α

/-- One space parts the closing brace from the pattern, and further ones belong to the pattern. -/
def readDefinition (line : Line) : Reading (String × String) :=
  match splitAtFirst '\x7d' line.text.tail with
  | some (name, ' ' :: pattern) =>
    if name.isEmpty || name.any isWhiteSpace then .error ⟨line.number, .malformedDefinition⟩
    else .ok (String.ofList name, String.ofList pattern)
  | _ => .error ⟨line.number, .malformedDefinition⟩

structure Declaration where
  name : String
  pattern : String
  line : Nat
  deriving DecidableEq, Repr

def readDefinitions : List Line → Reading (List Declaration × List Line)
  | [] => .ok ([], [])
  | line :: rest =>
    if line.text.head? = some '\x7b' then do
      let (name, pattern) ← readDefinition line
      let (later, rest) ← readDefinitions rest
      return (⟨name, pattern, line.number⟩ :: later, rest)
    else .ok ([], line :: rest)

def readHeader (header : Header) (endLine : Nat) :
    List Line → Reading (List String × Nat × List Line)
  | [] => .error ⟨endLine, .missingHeader header⟩
  | line :: rest =>
    match header.keyword.toList.isPrefixOf? line.text with
    | some names =>
      if (names.head?.map isWhiteSpace).getD true then
        .ok ((words names).map String.ofList, line.number, rest)
      else .error ⟨line.number, .missingHeader header⟩
    | none => .error ⟨line.number, .missingHeader header⟩

def readAction (states : List String) (line : Line) : Reading Action :=
  match Action.parse line.text with
  | .error fault => .error ⟨line.number, .badAction fault⟩
  | .ok (.switchState target) =>
    if target ∈ states then .ok (.switchState target)
    else .error ⟨line.number, .unknownState target⟩
  | .ok action => .ok action

/-- The actions up to the closing brace of the rule that begins on line `opened`. -/
def readActions (states : List String) (opened : Nat) :
    List Line → Reading (List Action × List Line)
  | [] => .error ⟨opened, .unterminatedRule⟩
  | line :: rest =>
    if trim line.text = ['\x7d'] then .ok ([], rest)
    else do
      let action ← readAction states line
      let (later, rest) ← readActions states opened rest
      return (action :: later, rest)

def readRuleHeader (states : List String) (header : Line) : Reading (String × String) :=
  match header.text with
  | '<' :: text =>
    match splitAtFirst '>' text with
    | some (state, pattern) =>
      let state := String.ofList state
      if state ∈ states then .ok (state, String.ofList pattern)
      else .error ⟨header.number, .unknownState state⟩
    | none => .error ⟨header.number, .expectedRule⟩
  | _ => .error ⟨header.number, .expectedRule⟩

def readUnit (units : List String) (opened : Nat) (line : Line) : Reading String :=
  let unit := trim line.text
  if unit = ['\x7d'] then .error ⟨opened, .unterminatedRule⟩
  else
    let unit := String.ofList unit
    if unit = noUnit ∨ unit ∈ units then .ok unit
    else .error ⟨line.number, .unknownUnit unit⟩

def readRule (states units : List String) (header : Line) (lines : List Line) :
    Reading (RuleSpec × List Line) := do
  let (state, pattern) ← readRuleHeader states header
  match lines with
  | opening :: unitLine :: body =>
    if trim opening.text = ['\x7b'] then
      let unit ← readUnit units header.number unitLine
      let (actions, rest) ← readActions states header.number body
      return (⟨state, pattern, unit, actions, header.number⟩, rest)
    else .error ⟨header.number, .unterminatedRule⟩
  | _ => .error ⟨header.number, .unterminatedRule⟩

theorem readActions_length {states : List String} {opened : Nat} {lines rest : List Line}
    {actions : List Action} (read : readActions states opened lines = .ok (actions, rest)) :
    rest.length ≤ lines.length := by
  induction lines generalizing actions with
  | nil => simp [readActions] at read
  | cons line later ih =>
    rw [readActions] at read
    split at read
    · simp only [Except.ok.injEq, Prod.mk.injEq] at read
      simp [read.2]
    · cases first : readAction states line with
      | error => simp [first, bind, Except.bind] at read
      | ok action =>
        cases body : readActions states opened later with
        | error => simp [first, body, bind, Except.bind] at read
        | ok result =>
          obtain ⟨more, final⟩ := result
          simp only [first, body, bind, Except.bind, pure, Except.pure, Except.ok.injEq,
            Prod.mk.injEq] at read
          obtain ⟨-, rfl⟩ := read
          exact Nat.le_succ_of_le (ih body)

theorem readRule_length {states units : List String} {header : Line} {lines rest : List Line}
    {rule : RuleSpec} (read : readRule states units header lines = .ok (rule, rest)) :
    rest.length ≤ lines.length := by
  unfold readRule at read
  cases head : readRuleHeader states header with
  | error => simp [head, bind, Except.bind] at read
  | ok pair =>
    simp only [head, bind, Except.bind] at read
    split at read
    case h_2 => simp at read
    case h_1 opening unitLine body =>
      split at read
      case isFalse => simp at read
      case isTrue =>
        cases unit : readUnit units header.number unitLine with
        | error => simp [unit] at read
        | ok name =>
          cases actions : readActions states header.number body with
          | error => simp [unit, actions] at read
          | ok result =>
            obtain ⟨more, final⟩ := result
            simp only [unit, actions, pure, Except.pure, Except.ok.injEq, Prod.mk.injEq] at read
            obtain ⟨-, rfl⟩ := read
            have := readActions_length actions
            simp only [List.length_cons]
            omega

def readRules (states units : List String) : List Line → Reading (List RuleSpec)
  | [] => .ok []
  | header :: lines =>
    match read : readRule states units header lines with
    | .error error => .error error
    | .ok (rule, rest) =>
      have := readRule_length read
      (readRules states units rest).map (rule :: ·)
termination_by lines => lines.length
decreasing_by simp; omega

def ofLines (endLine : Nat) (lines : List Line) : Reading Specification := do
  let (declarations, lines) ← readDefinitions lines
  let (states, statesLine, lines) ← readHeader .states endLine lines
  if states.isEmpty then .error ⟨statesLine, .noStates⟩
  else
    let (units, _, lines) ← readHeader .units endLine lines
    let rules ← readRules states units lines
    return {
      definitions := DefinitionTable.ofList (declarations.map fun d => (d.name, d.pattern))
      definitionLines := declarations.map fun d => (d.name, d.line)
      states := states
      units := units
      rules := rules }

/-- What is missing at the end of the text is missed on the line after the last. -/
def ofText (source : String) : Reading Specification :=
  let lines := numberedLines source.toList
  ofLines (lines.length + 1) (lines.filter fun line => !isBlank line.text)

end Specification

end MaximalMunch
