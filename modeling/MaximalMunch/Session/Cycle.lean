import MaximalMunch.Bundle.Basic
import MaximalMunch.Session.Scan
import MaximalMunch.Token

/-!
One cycle of a session. The longest match is looked for at the current position, the actions of
its rule run, and what is kept of the match becomes a token or is suppressed. With no match, or
with an empty one that would only repeat, one character is skipped as an error.
-/

namespace MaximalMunch

structure Effect where
  state : String
  line : Nat
  /-- The number of characters kept of the match. -/
  kept : Nat
  unit : Option String
  deriving DecidableEq, Repr

def Effect.apply (effect : Effect) : Action → Effect
  | .switchState target => { effect with state := target }
  | .goBack count => { effect with kept := min count effect.kept }
  | .suppress => { effect with unit := none }
  | .incrementLine => { effect with line := effect.line + 1 }

def Effect.applyAll (effect : Effect) (actions : List Action) : Effect :=
  actions.foldl Effect.apply effect

structure Session where
  rest : List Char
  /-- The number of characters before `rest`. -/
  position : Nat := 0
  state : String
  line : Nat := 1
  /-- The states that empty matches have gone through since the position last changed. -/
  visited : List String := []
  errors : Array LexicalError := #[]
  stats : Stats := {}
  deriving DecidableEq, Repr

inductive Outcome
  | emitted (token : Token)
  | suppressed
  | skipped (error : LexicalError)
  deriving DecidableEq, Repr

structure Cycle where
  position : Nat
  state : String
  found : Option Match
  /-- The characters the cycle went over, those of the kept match or the skipped one. -/
  span : List Char
  outcome : Outcome
  deriving DecidableEq, Repr

def Cycle.token? (cycle : Cycle) : Option Token :=
  match cycle.outcome with
  | .emitted token => some token
  | _ => none

namespace Session

def skip (session : Session) (char : Char) (tail : List Char) : LexicalError × Session :=
  let error := ⟨session.position, session.line, char⟩
  (error, { session with
    rest := tail
    position := session.position + 1
    visited := []
    errors := session.errors.push error
    stats := { session.stats with skipped := session.stats.skipped + 1 } })

def keep (stats : Stats) (effect : Effect) (span : List Char) : Outcome × Stats :=
  let stats := { stats with matched := stats.matched + effect.kept }
  match effect.unit with
  | some tag =>
    (.emitted ⟨tag, effect.line, String.ofList span⟩, { stats with tokens := stats.tokens + 1 })
  | none => (.suppressed, { stats with suppressed := stats.suppressed + 1 })

/-- The states an empty match must not lead to: it would only repeat what came before. -/
def closed (session : Session) : List String :=
  if session.visited.isEmpty then [session.state] else session.visited

def effectOf (session : Session) (found : Match) : Effect :=
  Effect.applyAll ⟨session.state, session.line, found.length, found.rule.unit⟩ found.rule.actions

def step (bundle : Bundle) (session : Session) : Option (Cycle × Session) :=
  match session.rest with
  | [] => none
  | char :: tail =>
    match scan bundle.graph (bundle.rules session.state) session.rest with
    | none =>
      let (error, next) := session.skip char tail
      some (⟨session.position, session.state, none, [char], .skipped error⟩, next)
    | some found =>
      let effect := session.effectOf found
      if effect.kept = 0 ∧ effect.state ∈ session.closed then
        let moved := { session with state := effect.state, line := effect.line }
        let (error, next) := moved.skip char tail
        some (⟨session.position, session.state, some found, [char], .skipped error⟩, next)
      else
        let span := session.rest.take effect.kept
        let (outcome, stats) := keep session.stats effect span
        some (⟨session.position, session.state, some found, span, outcome⟩,
          { session with
            rest := session.rest.drop effect.kept
            position := session.position + effect.kept
            state := effect.state
            line := effect.line
            visited := if effect.kept = 0 then effect.state :: session.closed else []
            stats := stats })

end Session

end MaximalMunch
