import MaximalMunch.Proofs.ConsistentBundles
import MaximalMunch.Proofs.ScannerCycles
import MaximalMunch.Proofs.Termination

/-!
No access of the machine ever fails, for all bundles and inputs, and the machine goes through
exactly the sessions of the input. If the bundle is consistent, the machine is always in a state
that the table holds.
-/

namespace MaximalMunch

namespace Machine

variable {bundle : Bundle} {input : List Char} {session later last : Session} {cycle : Cycle}
  {trace : List (Cycle × Session)} {machine next : Machine}

theorem amid_begin (bundle : Bundle) (input : String) :
    (begin bundle).Amid bundle input.toList (Session.startIn bundle.startState input) :=
  .ready rfl (Nat.zero_le _) (⟨rfl, rfl⟩ : Equipped bundle _ []) rfl

theorem filterMap_singleton (cycle : Cycle) :
    [cycle].filterMap Cycle.token? = cycle.token?.toList := by
  cases emits : cycle.token? with
  | none => rw [List.filterMap_cons_none emits]; rfl
  | some token => rw [List.filterMap_cons_some emits]; rfl

/-- Every moment lies in a cycle of a session that is reached, and its tokens are there. -/
theorem Steps.amid {first : Session} (amid : machine.Amid bundle input first)
    (fresh : machine.tokens = #[]) (steps : Steps bundle input machine next) :
    ∃ trace session, Session.Runs bundle first trace session ∧ next.Amid bundle input session ∧
      next.tokens.toList = (trace.map Prod.fst).filterMap Cycle.token? := by
  induction steps with
  | refl => exact ⟨[], first, .stay first, amid, by rw [fresh]; rfl⟩
  | @tail middle final earlier stepped ih =>
      rcases ih with ⟨trace, session, run, amid, tokens⟩
      rcases amid.step with ⟨halts, -, -⟩ | ⟨other, goes, onward⟩
      · rw [stepped] at halts
        cases halts
      · rw [stepped] at goes
        cases goes
        cases onward with
        | within amid same less => exact ⟨trace, session, run, amid, same ▸ tokens⟩
        | @behind cycle later taken amid ready more =>
            have longer := run.trans (.more taken (.stay later))
            refine ⟨trace ++ [(cycle, later)], later, longer, amid, ?_⟩
            calc final.tokens.toList
              _ = (trace.map Prod.fst).filterMap Cycle.token? ++ cycle.token?.toList := by
                  rw [more, tokens]
              _ = (trace.map Prod.fst ++ [cycle]).filterMap Cycle.token? := by
                  rw [List.filterMap_append, filterMap_singleton]
              _ = ((trace ++ [(cycle, later)]).map Prod.fst).filterMap Cycle.token? := by
                  rw [List.map_append, List.map_singleton]

/-- A cycle of the session takes finitely many steps of the machine. -/
theorem exists_steps_of_step (machine : Machine) (amid : machine.Amid bundle input session)
    (stepped : session.step bundle = some (cycle, later)) :
    ∃ next, Steps bundle input machine next ∧ next.phase = .ready ∧
      next.Amid bundle input later ∧
        next.tokens.toList = machine.tokens.toList ++ cycle.token?.toList := by
  rcases amid.step with ⟨-, -, ended⟩ | ⟨middle, goes, onward⟩
  · rw [Session.step_eq_none_iff.mpr ended] at stepped
    cases stepped
  · cases onward with
    | within amid same less =>
        rcases exists_steps_of_step middle amid stepped with ⟨next, steps, ready, behind, tokens⟩
        exact ⟨next, .head goes steps, ready, behind, same ▸ tokens⟩
    | behind taken behind ready tokens =>
        rw [stepped] at taken
        cases taken
        exact ⟨middle, .single goes, ready, behind, tokens⟩
termination_by machine.rank input
decreasing_by exact less

theorem exists_steps_of_runs {first : Session} (run : Session.Runs bundle first trace last)
    (machine : Machine) (ready : machine.phase = .ready)
    (amid : machine.Amid bundle input first) :
    ∃ next, Steps bundle input machine next ∧ next.phase = .ready ∧ next.Amid bundle input last ∧
      next.tokens.toList =
        machine.tokens.toList ++ (trace.map Prod.fst).filterMap Cycle.token? := by
  induction run generalizing machine with
  | stay => exact ⟨machine, .refl, ready, amid, (List.append_nil _).symm⟩
  | @more session next last cycle trace stepped run ih =>
      rcases exists_steps_of_step machine amid stepped with ⟨middle, front, ready, amid, tokens⟩
      rcases ih middle ready amid with ⟨final, back, ready, amid, more⟩
      refine ⟨final, front.trans back, ready, amid, ?_⟩
      calc final.tokens.toList
        _ = middle.tokens.toList ++ (trace.map Prod.fst).filterMap Cycle.token? := more
        _ = machine.tokens.toList ++
              (cycle.token?.toList ++ (trace.map Prod.fst).filterMap Cycle.token?) := by
            rw [tokens, List.append_assoc]
        _ = machine.tokens.toList ++ ([cycle] ++ trace.map Prod.fst).filterMap Cycle.token? := by
            rw [List.filterMap_append, filterMap_singleton]

theorem Amid.session_eq (amid : machine.Amid bundle input session)
    (ready : machine.phase = .ready) : machine.session input = session := by
  cases amid with
  | ready phase bounded equipped shows => exact shows
  | scanning phase => cases ready.symm.trans phase
  | scanned phase => cases ready.symm.trans phase
  | acting performing => cases ready.symm.trans performing.phase

theorem switches_of_target? {action : Action} {target : String}
    (switches : action.target? = some target) : action = .switchState target := by
  cases action with
  | switchState name => exact congrArg Action.switchState (Option.some.inj switches)
  | goBack count => cases switches
  | suppress => cases switches
  | incrementLine => cases switches

theorem contains_applyAll (consistent : bundle.Consistent) {effect : Effect}
    (known : bundle.states.contains effect.state = true) {state : String} {rule : Rule}
    (listed : rule ∈ bundle.rules state) {actions : List Action} (among : actions ⊆ rule.actions) :
    bundle.states.contains (effect.applyAll actions).state = true := by
  rcases effect.applyAll_state actions with same | switched
  · rw [same]
    exact known
  · rcases List.mem_filterMap.mp switched with ⟨action, member, switches⟩
    have performed := among member
    rw [switches_of_target? switches] at performed
    exact consistent.target state rule listed _ performed

theorem contains_of_runs (consistent : bundle.Consistent) {input : String}
    (run : Session.Runs bundle (Session.startIn bundle.startState input) trace last) :
    bundle.states.contains last.state = true := by
  apply run.invariant fun session => bundle.states.contains session.state = true
  · intro session cycle next known took
    cases took with
    | unmatched reads scanned => exact known
    | refused reads scanned empty repeats =>
        exact contains_applyAll consistent known (scan_mem scanned) (List.Subset.refl _)
    | kept unfinished scanned moves =>
        exact contains_applyAll consistent known (scan_mem scanned) (List.Subset.refl _)
  · exact consistent.start

theorem Amid.contains (amid : machine.Amid bundle input session) (consistent : bundle.Consistent)
    (known : bundle.states.contains session.state = true) :
    bundle.states.contains machine.state = true := by
  cases amid with
  | ready phase bounded equipped shows =>
      cases shows
      exact known
  | scanning phase range equipped shows fresh found =>
      cases shows
      exact known
  | scanned phase range equipped shows found stops =>
      cases shows
      exact known
  | @acting winner found done line performing =>
      have listed : found.rule ∈ bundle.rules winner.before :=
        performing.rules ▸ List.mem_of_getElem? performing.index
      have among : done ⊆ found.rule.actions :=
        performing.split ▸ List.subset_append_left _ _
      have state : machine.state = (machine.effect winner.unit).state := rfl
      rw [← performing.shows] at known
      rw [state, performing.effect]
      exact contains_applyAll consistent known listed among

theorem Amid.rules_eq (amid : machine.Amid bundle input session) :
    machine.rules = bundle.rules machine.state := by
  cases amid with
  | ready phase bounded equipped => exact equipped.rules
  | scanning phase range equipped => exact equipped.rules
  | scanned phase range equipped => exact equipped.rules
  | acting performing =>
      rcases performing.equipped with ⟨front, equipped⟩
      exact equipped.rules

/--
What holds at every moment: no access fails, the registers are in order, and the rule that wins is
one of the state the match was found in, whatever state its actions lead to.
-/
structure Sound (bundle : Bundle) (input : List Char) (machine : Machine) : Prop where
  steps : ∃ next, machine.step bundle input = .ok next
  bounded : machine.start ≤ input.length
  range : machine.phase ≠ .ready → machine.InRange input
  scanned : ∀ index stop, machine.phase = .scanned (some (index, stop)) →
    machine.rules = bundle.rules machine.state ∧ index < machine.rules.length ∧
      machine.start < stop ∧ machine.lastAccept = stop
  acting : ∀ winner, machine.phase = .acting winner →
    winner.rules = bundle.rules winner.before ∧ winner.index < winner.rules.length

theorem Amid.range (amid : machine.Amid bundle input session) (busy : machine.phase ≠ .ready) :
    machine.InRange input := by
  cases amid with
  | ready phase => exact absurd phase busy
  | scanning phase range => exact range
  | scanned phase range => exact range
  | acting performing => exact performing.range

theorem Amid.bounded (amid : machine.Amid bundle input session) :
    machine.start ≤ input.length := by
  cases amid with
  | ready phase bounded => exact bounded
  | scanning phase range => exact Nat.le_of_lt range.unfinished
  | scanned phase range => exact Nat.le_of_lt range.unfinished
  | acting performing => exact Nat.le_of_lt performing.range.unfinished

theorem Amid.scanned_best (amid : machine.Amid bundle input session) {index stop : Nat}
    (phase : machine.phase = .scanned (some (index, stop))) :
    index < machine.rules.length ∧ machine.start < stop ∧ machine.lastAccept = stop := by
  cases amid with
  | ready ready => cases ready.symm.trans phase
  | scanning scanning => cases scanning.symm.trans phase
  | acting performing => cases performing.phase.symm.trans phase
  | scanned scanned range equipped shows found stops =>
      cases scanned.symm.trans phase
      rcases Option.map_eq_some_iff.mp found.symm with ⟨winner, won, place⟩
      cases place
      rcases scan_eq_some_iff.mp won with ⟨listed, wins⟩
      exact ⟨(List.getElem?_eq_some_iff.mp listed).1, Nat.lt_add_of_pos_right wins.positive,
        stops _ _ rfl⟩

theorem Amid.acting_winner (amid : machine.Amid bundle input session) {winner : Winner}
    (phase : machine.phase = .acting winner) :
    winner.rules = bundle.rules winner.before ∧ winner.index < winner.rules.length := by
  cases amid with
  | ready ready => cases ready.symm.trans phase
  | scanning scanning => cases scanning.symm.trans phase
  | scanned scanned => cases scanned.symm.trans phase
  | acting performing =>
      cases performing.phase.symm.trans phase
      exact ⟨performing.rules, (List.getElem?_eq_some_iff.mp performing.index).1⟩

theorem Amid.sound (amid : machine.Amid bundle input session) : machine.Sound bundle input := by
  constructor
  · rcases amid.step with ⟨halts, -, -⟩ | ⟨next, goes, -⟩
    · exact ⟨none, halts⟩
    · exact ⟨some next, goes⟩
  · exact amid.bounded
  · exact amid.range
  · exact fun index stop phase => ⟨amid.rules_eq, amid.scanned_best phase⟩
  · exact fun winner phase => amid.acting_winner phase

/--
For every bundle and input, no access of the machine fails at any moment it comes to. If the
bundle passes validation, the table always holds the current state, with the current rules. And
the machine comes to all sessions of the input, with their tokens.
-/
theorem sound_of_steps {input : String} {first : Session}
    (started : Session.start bundle input = .ok first) :
    (∀ machine, Steps bundle input.toList (begin bundle) machine →
      machine.Sound bundle input.toList ∧
        (bundle.validate = .ok bundle → bundle.rules? machine.state = some machine.rules)) ∧
    ∀ trace session, Session.Runs bundle first trace session →
      ∃ machine, Steps bundle input.toList (begin bundle) machine ∧ machine.phase = .ready ∧
        machine.session input.toList = session ∧
          machine.tokens.toList = (trace.map Prod.fst).filterMap Cycle.token? := by
  have begins := amid_begin bundle input
  rw [← Session.start_eq_ok started] at begins
  constructor
  · intro machine steps
    rcases steps.amid begins rfl with ⟨trace, session, run, amid, -⟩
    refine ⟨amid.sound, ?_⟩
    intro valid
    have consistent := Bundle.validate_eq_ok_iff.mp valid
    rw [Session.start_eq_ok started] at run
    have known := amid.contains consistent (contains_of_runs consistent run)
    rcases Option.isSome_iff_exists.mp known with ⟨rules, bound⟩
    have held : bundle.rules? machine.state = some rules := bound
    rw [amid.rules_eq, Bundle.rules, held]
    rfl
  · intro trace session run
    rcases exists_steps_of_runs run (begin bundle) rfl begins with
      ⟨machine, steps, ready, amid, tokens⟩
    exact ⟨machine, steps, ready, amid.session_eq ready, tokens⟩

/--
The second rule wins, leads to a state without rules and gives half of its match back; an edge of
the graph leads outside it.
-/
def straying : Bundle where
  startState := "S"
  states := StateTable.push (StateTable.push {} "S" ⟨some "LATE", ⟨7, 1⟩, []⟩) "S"
    ⟨some "PAIR", ⟨0, 2⟩, [.switchState "T", .goBack 1, .incrementLine]⟩
  graph := { nodes := #[{ transitions := OrderedMap.empty.insert 'a' 1 },
    { transitions := OrderedMap.empty.insert 'a' 2 }, { epsilon := OrderedSet.ofList [9] }] }

def alternating : Bundle where
  startState := "S"
  states := StateTable.push (StateTable.push {} "S" ⟨some "A", ⟨0, 1⟩, [.switchState "T"]⟩) "T"
    ⟨some "A", ⟨0, 1⟩, [.switchState "S"]⟩
  graph := { nodes := #[{ transitions := OrderedMap.empty.insert 'a' 1 }, {}] }

theorem sound_of_steps_straying :
    straying.fault? = some (.outsideGraph "S" ⟨7, 1⟩) ∧
      (∀ machine, Steps straying ['a', 'a', 'b'] (begin straying) machine →
        machine.Sound straying ['a', 'a', 'b']) ∧
      alternating.validate = .ok alternating ∧
        ∀ machine, Steps alternating ['a', 'a'] (begin alternating) machine →
          alternating.rules? machine.state = some machine.rules := by
  have faulty : straying.fault? = some (.outsideGraph "S" ⟨7, 1⟩) := by cbv
  have valid : alternating.validate = .ok alternating := by cbv
  have strays : Session.start straying "aab" = .ok (Session.startIn "S" "aab") := by cbv
  have alternates : Session.start alternating "aa" = .ok (Session.startIn "S" "aa") := by cbv
  refine ⟨faulty, ?_, valid, ?_⟩
  · intro machine steps
    exact ((sound_of_steps strays).1 machine steps).1
  · intro machine steps
    exact ((sound_of_steps alternates).1 machine steps).2 valid

end Machine

end MaximalMunch
