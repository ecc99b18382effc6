import MaximalMunch.Proofs.RuleLayout
import MaximalMunch.Session.Run

/-!
The reference lexer reads a specification as it is written down. It knows the languages of the
patterns, but no graph, and it says which streams a text may give, turn by turn.
-/

namespace MaximalMunch

/-- Where the lexer stands, and the states it has been in at this position. -/
structure Moment where
  position : Nat
  state : String
  line : Nat
  visited : List String
  deriving DecidableEq, Repr

structure Taken where
  state : String
  line : Nat
  stop : Nat
  unit : Option String
  deriving DecidableEq, Repr

/-- Going back keeps at most `count` characters from the start of the match. -/
def Taken.obey (start : Nat) (taken : Taken) : Action → Taken
  | .switchState target => { taken with state := target }
  | .goBack count => { taken with stop := min (start + count) taken.stop }
  | .suppress => { taken with unit := none }
  | .incrementLine => { taken with line := taken.line + 1 }

def Specification.languagesOf (specification : Specification) (state : String) :
    List (Language Char) :=
  (specification.rulesOf state).map (RuleSpec.language specification.definitions)

namespace Moment

def start (specification : Specification) : Moment :=
  ⟨0, specification.states.headD "", 1, [specification.states.headD ""]⟩

def take (moment : Moment) (rule : RuleSpec) (length : Nat) : Taken :=
  rule.actions.foldl (Taken.obey moment.position)
    ⟨moment.state, moment.line, moment.position + length, rule.tag?⟩

def behind (moment : Moment) (taken : Taken) : Moment :=
  ⟨taken.stop, taken.state, taken.line,
    if taken.stop = moment.position then taken.state :: moment.visited else [taken.state]⟩

end Moment

/-- One character further on, without having been anywhere else there. -/
def Moment.past (position : Nat) (state : String) (line : Nat) : Moment :=
  ⟨position + 1, state, line, [state]⟩

/-- The first rule with the longest match takes it, and its actions make this of it. -/
def Takes (specification : Specification) (input : List Char) (moment : Moment) (taken : Taken) :
    Prop :=
  ∃ index rule length, (specification.rulesOf moment.state)[index]? = some rule ∧
    Wins (specification.languagesOf moment.state) (input.drop moment.position) index length ∧
      taken = moment.take rule length

def Taken.outcome (input : List Char) (start : Nat) (taken : Taken) : Outcome :=
  match taken.unit with
  | some tag =>
    .emitted ⟨tag, taken.line, String.ofList (input.extract start taken.stop)⟩
  | none => .suppressed

inductive Turn (specification : Specification) (input : List Char) (moment : Moment) :
    Outcome → Moment → Prop
  | unmatched {char : Char} (next : input[moment.position]? = some char)
      (unmatched : Unmatched (specification.languagesOf moment.state)
        (input.drop moment.position)) :
      Turn specification input moment (.skipped ⟨moment.position, moment.line, char⟩)
        (.past moment.position moment.state moment.line)
  | refused {char : Char} {taken : Taken} (next : input[moment.position]? = some char)
      (takes : Takes specification input moment taken) (empty : taken.stop = moment.position)
      (repeats : taken.state ∈ moment.visited) :
      Turn specification input moment (.skipped ⟨moment.position, taken.line, char⟩)
        (.past moment.position taken.state taken.line)
  | kept {taken : Taken} (takes : Takes specification input moment taken)
      (moves : taken.stop = moment.position → taken.state ∉ moment.visited) :
      Turn specification input moment (taken.outcome input moment.position)
        (moment.behind taken)

def Outcome.stream (length : Nat) : Outcome → TokenStream
  | .emitted token => ⟨[token], [], { tokens := 1, matched := length }⟩
  | .suppressed => ⟨[], [], { suppressed := 1, matched := length }⟩
  | .skipped error => ⟨[], [error], { skipped := 1 }⟩

def TokenStream.append (front back : TokenStream) : TokenStream where
  tokens := front.tokens ++ back.tokens
  errors := front.errors ++ back.errors
  stats :=
    { tokens := front.stats.tokens + back.stats.tokens
      suppressed := front.stats.suppressed + back.stats.suppressed
      matched := front.stats.matched + back.stats.matched
      skipped := front.stats.skipped + back.stats.skipped }

/-- Turns until the input is used up give this stream. -/
inductive Lexes (specification : Specification) (input : List Char) : Moment → TokenStream → Prop
  | ended {moment : Moment} (ended : moment.position = input.length) :
      Lexes specification input moment ⟨[], [], {}⟩
  | turn {moment after : Moment} {outcome : Outcome} {stream : TokenStream}
      (turn : Turn specification input moment outcome after)
      (later : Lexes specification input after stream) :
      Lexes specification input moment
        ((outcome.stream (after.position - moment.position)).append stream)

section Determinism

variable {specification : Specification} {input : List Char} {moment after other : Moment}
  {outcome otherOutcome : Outcome} {taken otherTaken : Taken} {stream otherStream : TokenStream}

theorem Takes.unique (takes : Takes specification input moment taken)
    (alsoTakes : Takes specification input moment otherTaken) : taken = otherTaken := by
  rcases takes with ⟨index, rule, length, listed, wins, rfl⟩
  rcases alsoTakes with ⟨otherIndex, otherRule, otherLength, otherListed, otherWins, rfl⟩
  rcases wins.unique otherWins with ⟨rfl, rfl⟩
  rw [listed] at otherListed
  rw [Option.some.inj otherListed]

theorem Takes.not_unmatched (takes : Takes specification input moment taken) :
    ¬ Unmatched (specification.languagesOf moment.state) (input.drop moment.position) := by
  rcases takes with ⟨index, rule, length, -, wins, -⟩
  exact wins.not_unmatched

theorem Takes.position_lt (takes : Takes specification input moment taken) :
    moment.position < input.length := by
  rcases takes with ⟨index, rule, length, -, wins, -⟩
  have positive := wins.positive
  have bounded := wins.bounded
  rw [List.length_drop] at bounded
  omega

theorem Turn.position_lt (turn : Turn specification input moment outcome after) :
    moment.position < input.length := by
  cases turn with
  | unmatched next unmatched => exact (List.getElem?_eq_some_iff.mp next).1
  | refused next takes empty repeats => exact takes.position_lt
  | kept takes moves => exact takes.position_lt

theorem Turn.unique (turn : Turn specification input moment outcome after)
    (otherTurn : Turn specification input moment otherOutcome other) :
    outcome = otherOutcome ∧ after = other := by
  cases turn with
  | unmatched next unmatched =>
      cases otherTurn with
      | unmatched otherNext otherUnmatched =>
          rw [next] at otherNext
          cases otherNext
          exact ⟨rfl, rfl⟩
      | refused otherNext otherTakes empty repeats =>
          exact absurd unmatched otherTakes.not_unmatched
      | kept otherTakes moves => exact absurd unmatched otherTakes.not_unmatched
  | refused next takes empty repeats =>
      cases otherTurn with
      | unmatched otherNext otherUnmatched => exact absurd otherUnmatched takes.not_unmatched
      | refused otherNext otherTakes otherEmpty otherRepeats =>
          rw [next] at otherNext
          cases otherNext
          rw [takes.unique otherTakes]
          exact ⟨rfl, rfl⟩
      | kept otherTakes moves =>
          rw [takes.unique otherTakes] at empty repeats
          exact absurd repeats (moves empty)
  | kept takes moves =>
      cases otherTurn with
      | unmatched otherNext otherUnmatched => exact absurd otherUnmatched takes.not_unmatched
      | refused otherNext otherTakes empty repeats =>
          rw [takes.unique otherTakes] at moves
          exact absurd repeats (moves empty)
      | kept otherTakes otherMoves =>
          rw [takes.unique otherTakes]
          exact ⟨rfl, rfl⟩

theorem Lexes.unique (lexes : Lexes specification input moment stream)
    (alsoLexes : Lexes specification input moment otherStream) : stream = otherStream := by
  induction lexes generalizing otherStream with
  | ended ended =>
      cases alsoLexes with
      | ended otherEnded => rfl
      | turn otherTurn otherLater => exact absurd ended (Nat.ne_of_lt otherTurn.position_lt)
  | turn turn later ih =>
      cases alsoLexes with
      | ended otherEnded => exact absurd otherEnded (Nat.ne_of_lt turn.position_lt)
      | turn otherTurn otherLater =>
          rcases turn.unique otherTurn with ⟨rfl, rfl⟩
          rw [ih otherLater]

end Determinism

end MaximalMunch
