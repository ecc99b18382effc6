import MaximalMunch.Proofs.SessionRuns
import Mathlib

/-!
What a session finds at its position, told by the stretches of the input alone. Of the stretches
that begin at the position and that some rule of the lexer state accepts, the longest wins, by the
first rule that accepts it.
-/

namespace MaximalMunch

namespace Session

variable {bundle : Bundle} {input : String} {first session : Session}
  {trace : List (Cycle × Session)} {index length : Nat}

/-- Whether the rule accepts the input from the position of the session up to `stop`. -/
def Accepts (bundle : Bundle) (input : String) (session : Session) (stop : Nat) (rule : Rule) :
    Prop :=
  rule.fragment.accepts bundle.graph (input.toList.extract session.position stop) = true

/-- The ends of the non-empty stretches that some rule of the lexer state accepts. -/
def matchEnds (bundle : Bundle) (input : String) (session : Session) : Set Nat :=
  {stop | session.position < stop ∧ stop ≤ input.length ∧
    ∃ rule ∈ bundle.rules session.state, session.Accepts bundle input stop rule}

/-- The places of the rules that accept the stretch up to `stop`. -/
def matchIndices (bundle : Bundle) (input : String) (session : Session) (stop : Nat) : Set Nat :=
  {index | ∃ rule, (bundle.rules session.state)[index]? = some rule ∧
    session.Accepts bundle input stop rule}

theorem Placed.accepts_iff (placed : Placed input session) (rule : Rule) :
    session.Accepts bundle input (session.position + length) rule ↔
      session.rest.take length ∈ rule.language bundle.graph := by
  have stretch : input.toList.extract session.position (session.position + length) =
      session.rest.take length := by
    rw [List.extract, Nat.add_sub_cancel_left, placed.rest]
  rw [Accepts, stretch]
  rfl

theorem Placed.mem_matchEnds (placed : Placed input session) :
    session.position + length ∈ session.matchEnds bundle input ↔
      0 < length ∧ length ≤ session.rest.length ∧
        ∃ language ∈ Rule.languages bundle.graph (bundle.rules session.state),
          session.rest.take length ∈ language := by
  have remaining := placed.rest_length
  have bounded := placed.bounded
  have holds : (∃ rule ∈ bundle.rules session.state,
      session.Accepts bundle input (session.position + length) rule) ↔
        ∃ language ∈ Rule.languages bundle.graph (bundle.rules session.state),
          session.rest.take length ∈ language := by
    simp [placed.accepts_iff, Rule.languages]
  have positive : session.position < session.position + length ↔ 0 < length := by omega
  have within : session.position + length ≤ input.length ↔ length ≤ session.rest.length := by
    omega
  rw [matchEnds, Set.mem_ofPred_eq, holds, positive, within]

theorem Placed.mem_matchIndices (placed : Placed input session) :
    index ∈ session.matchIndices bundle input (session.position + length) ↔
      ∃ language, (Rule.languages bundle.graph (bundle.rules session.state))[index]? =
        some language ∧ session.rest.take length ∈ language := by
  simp [matchIndices, placed.accepts_iff, Rule.languages]

theorem Placed.wins_iff (placed : Placed input session) :
    Wins (Rule.languages bundle.graph (bundle.rules session.state)) session.rest index length ↔
      IsGreatest (session.matchEnds bundle input) (session.position + length) ∧
        IsLeast (session.matchIndices bundle input (session.position + length)) index := by
  constructor
  · intro wins
    refine ⟨⟨?_, ?_⟩, ?_, ?_⟩
    · rcases wins.holds with ⟨language, listed, member⟩
      exact placed.mem_matchEnds.mpr
        ⟨wins.positive, wins.bounded, language, List.mem_of_getElem? listed, member⟩
    · intro stop ending
      apply Nat.le_of_not_lt
      intro longer
      rcases Nat.exists_eq_add_of_le (Nat.le_of_lt ending.1) with ⟨other, rfl⟩
      rcases placed.mem_matchEnds.mp ending with ⟨-, bounded, language, listed, member⟩
      exact wins.longest _ (by omega) bounded language listed member
    · exact placed.mem_matchIndices.mpr wins.holds
    · intro earlier matching
      apply Nat.le_of_not_lt
      intro less
      rcases placed.mem_matchIndices.mp matching with ⟨language, listed, member⟩
      exact wins.first earlier less language listed member
  · intro greatest
    rcases greatest with ⟨⟨ending, longest⟩, matching, least⟩
    rcases placed.mem_matchEnds.mp ending with ⟨positive, bounded, -⟩
    constructor
    · exact positive
    · exact bounded
    · exact placed.mem_matchIndices.mp matching
    · intro earlier less language listed member
      have lower := least (placed.mem_matchIndices.mpr ⟨language, listed, member⟩)
      omega
    · intro other longer within language listed member
      have upper := longest (placed.mem_matchEnds.mpr
        ⟨Nat.zero_lt_of_lt longer, within, language, listed, member⟩)
      omega

theorem Placed.unmatched_iff (placed : Placed input session) :
    Unmatched (Rule.languages bundle.graph (bundle.rules session.state)) session.rest ↔
      ∀ stop, session.position < stop → stop ≤ input.length →
        ∀ rule ∈ bundle.rules session.state, ¬ session.Accepts bundle input stop rule := by
  constructor
  · intro unmatched stop beyond within rule listed accepts
    rcases Nat.exists_eq_add_of_le (Nat.le_of_lt beyond) with ⟨length, rfl⟩
    rcases placed.mem_matchEnds.mp ⟨beyond, within, rule, listed, accepts⟩ with
      ⟨positive, bounded, language, member, word⟩
    exact unmatched _ positive bounded language member word
  · intro absent length positive bounded language member word
    rcases placed.mem_matchEnds.mpr ⟨positive, bounded, language, member, word⟩ with
      ⟨beyond, within, rule, listed, accepts⟩
    exact absent _ beyond within rule listed accepts

/--
Maximal munch with rule priority, in every session that is reached. A rule that accepts no word
but the empty one is never the winner.
-/
theorem scan_of_runs (started : Session.start bundle input = .ok first)
    (run : Runs bundle first trace session) :
    (∀ found, scan bundle.graph (bundle.rules session.state) session.rest = some found ↔
      (bundle.rules session.state)[found.index]? = some found.rule ∧
        IsGreatest (session.matchEnds bundle input) (session.position + found.length) ∧
          IsLeast (session.matchIndices bundle input (session.position + found.length))
            found.index) ∧
    (scan bundle.graph (bundle.rules session.state) session.rest = none ↔
      ∀ stop, session.position < stop → stop ≤ input.length →
        ∀ rule ∈ bundle.rules session.state, ¬ session.Accepts bundle input stop rule) ∧
    (∀ rule : Rule, (∀ word, rule.fragment.accepts bundle.graph word = true → word = []) →
      ∀ found, scan bundle.graph (bundle.rules session.state) session.rest = some found →
        found.rule ≠ rule) := by
  have placed := run.placed started
  refine ⟨?_, ?_, ?_⟩
  · intro found
    rw [scan_eq_some_iff, placed.wins_iff]
  · rw [scan_eq_none_iff, placed.unmatched_iff]
  · intro rule empty found scanned same
    rcases scan_eq_some_iff.mp scanned with ⟨listed, wins⟩
    rcases wins.holds with ⟨language, place, member⟩
    have own : rule.language bundle.graph = language := by
      rw [Rule.languages, List.getElem?_map, listed, Option.map_some, same] at place
      exact Option.some.inj place
    rw [← own] at member
    have none : session.rest.take found.length = [] := empty _ member
    have positive := wins.positive
    have bounded := wins.bounded
    have length := congrArg List.length none
    rw [List.length_take, List.length_nil] at length
    omega

def overlapping : Bundle where
  startState := "S"
  states := StateTable.push (StateTable.push (StateTable.push {} "S"
    ⟨some "PAIR", ⟨0, 2⟩, []⟩) "S" ⟨some "ONE", ⟨3, 4⟩, []⟩) "S" ⟨some "NONE", ⟨4, 4⟩, []⟩
  graph :=
    { nodes := #[{ transitions := OrderedMap.empty.insert 'a' 1 },
        { transitions := OrderedMap.empty.insert 'b' 2 }, {},
        { transitions := OrderedMap.empty.insert 'a' 4 }, {}] }

def afterPair : Session where
  rest := ['a', 'a']
  position := 2
  state := "S"
  stats := { tokens := 1, matched := 2 }

theorem scan_of_runs_overlapping :
    scan overlapping.graph (overlapping.rules afterPair.state) afterPair.rest =
        some ⟨1, ⟨some "ONE", ⟨3, 4⟩, []⟩, 1⟩ ∧
      IsGreatest (afterPair.matchEnds overlapping "abaa") 3 ∧
        IsLeast (afterPair.matchIndices overlapping "abaa" 3) 1 := by
  have started : Session.start overlapping "abaa" = .ok (startIn "S" "abaa") := by cbv
  have stepped : (startIn "S" "abaa").step overlapping =
      some (⟨0, "S", some ⟨0, ⟨some "PAIR", ⟨0, 2⟩, []⟩, 2⟩, ['a', 'b'],
        .emitted ⟨"PAIR", 1, "ab"⟩⟩, afterPair) := by cbv
  have scanned : scan overlapping.graph (overlapping.rules afterPair.state) afterPair.rest =
      some ⟨1, ⟨some "ONE", ⟨3, 4⟩, []⟩, 1⟩ := by cbv
  have wins := ((scan_of_runs started (.more stepped (.stay afterPair))).1 _).mp scanned
  exact ⟨scanned, wins.2⟩

end Session

end MaximalMunch
