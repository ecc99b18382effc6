import MaximalMunch.Proofs.OrderedLists
import MaximalMunch.Proofs.ScannerMachine
import MaximalMunch.Proofs.SessionRuns

/-!
The machine goes through the cycles of a session. Within a cycle its registers hold what the scan
has found so far, or what the actions have made of the match; at the end of the cycle they show
the next session.
-/

namespace MaximalMunch

def Match.place (start : Nat) (found : Match) : Nat × Nat := (found.index, start + found.length)

section Prefixes

variable {graph : Graph} {rules : List Rule} {front rest : List Char} {best : Option Match}

theorem scan_eq_of_best (within : BestWithin graph rules front best) :
    scan graph rules front = best := by
  cases best with
  | none => exact scan_eq_none_iff.mpr within
  | some found => exact scan_eq_some_iff.mpr within

theorem scan_append (beyond : ∀ other, front.length < other → other ≤ (front ++ rest).length →
    ∀ language ∈ Rule.languages graph rules, (front ++ rest).take other ∉ language) :
    scan graph rules (front ++ rest) = scan graph rules front :=
  scan_eq_of_best ((scan_best graph rules front).extend beyond)

theorem Rule.after_append (graph : Graph) (front rest : List Char) (rule : Rule) :
    rule.after graph (front ++ rest) = (rule.after graph front).run graph rest :=
  Simulation.run_append graph _ front rest

theorem scan_append_of_dead
    (dead : ∀ rule ∈ rules, (rule.after graph front).isDead = true) (rest : List Char) :
    scan graph rules (front ++ rest) = scan graph rules front := by
  apply scan_append
  intro other longer bounded language listed
  rcases List.mem_map.mp listed with ⟨rule, member, rfl⟩
  have split : (front ++ rest).take other = front ++ rest.take (other - front.length) := by
    rw [List.take_append, List.take_of_length_le (Nat.le_of_lt longer)]
  rw [split, Rule.mem_language, Rule.after_append,
    Simulation.not_isAccepting_of_isDead (Simulation.isDead_run graph (dead rule member) _)]
  exact Bool.false_ne_true

theorem Simulation.step_of_isDead {simulation : Simulation} (dead : simulation.isDead = true)
    (graph : Graph) (char : Char) : simulation.step graph char = simulation := by
  have still := Simulation.isDead_step graph dead char
  rcases simulation with ⟨fragment, active⟩
  have nothing : active.elements = [] := List.isEmpty_iff.mp dead
  have same : (Simulation.step graph ⟨fragment, active⟩ char).active = active := by
    apply OrderedSet.eq_of_elements
    rw [nothing]
    exact List.isEmpty_iff.mp still
  exact congrArg (Simulation.mk fragment) same

namespace Machine

theorem consume_eq_step (graph : Graph) (char : Char) (simulation : Simulation) :
    consume graph char simulation = simulation.step graph char := by
  rw [consume]
  split
  case isTrue dead => exact (Simulation.step_of_isDead dead graph char).symm
  case isFalse => rfl

theorem alive_and_accepting (simulation : Simulation) :
    (!simulation.isDead && simulation.isAccepting) = simulation.isAccepting := by
  cases dead : simulation.isDead with
  | false => rfl
  | true => rw [Simulation.not_isAccepting_of_isDead dead]; rfl

theorem firstAccepting?_eq (graph : Graph) (rules : List Rule) (front : List Char) :
    firstAccepting? (rules.map (Rule.after graph front)) =
      rules.findIdx? fun rule => (rule.after graph front).isAccepting := by
  rw [firstAccepting?, List.findIdx?_map]
  exact congrArg (List.findIdx? · rules) (funext fun rule => alive_and_accepting _)

/-- The first rule to accept all of a text wins it. -/
theorem scan_of_findIdx? {index : Nat} (nonempty : 0 < front.length)
    (first : (rules.findIdx? fun rule => (rule.after graph front).isAccepting) = some index) :
    ∃ rule, MaximalMunch.scan graph rules front = some ⟨index, rule, front.length⟩ := by
  rcases List.findIdx?_eq_some_iff_getElem.mp first with ⟨inside, accepts, refused⟩
  have listed : rules[index]? = some rules[index] := List.getElem?_eq_getElem inside
  refine ⟨rules[index], scan_eq_some_iff.mpr ⟨listed, nonempty, Nat.le_refl _, ?_, ?_, ?_⟩⟩
  · refine ⟨rules[index].language graph, ?_, ?_⟩
    · simp [Rule.languages, listed]
    · rw [List.take_length, Rule.mem_language]
      exact accepts
  · intro earlier less language known word
    rw [Rule.languages, List.getElem?_map] at known
    rcases Option.map_eq_some_iff.mp known with ⟨rule, placed, rfl⟩
    rcases List.getElem?_eq_some_iff.mp placed with ⟨within, rfl⟩
    rw [List.take_length, Rule.mem_language] at word
    have silent := refused earlier less
    simp [word] at silent
  · intro other longer bounded
    exact absurd bounded (Nat.not_le_of_lt longer)

theorem scan_concat (graph : Graph) (rules : List Rule) (front : List Char) (char : Char)
    (start : Nat) :
    (MaximalMunch.scan graph rules (front ++ [char])).map (Match.place start) =
      ((firstAccepting? (rules.map (Rule.after graph (front ++ [char])))).map fun index =>
        (index, start + (front.length + 1))).or
          ((MaximalMunch.scan graph rules front).map (Match.place start)) := by
  have length : (front ++ [char]).length = front.length + 1 := by simp
  rw [firstAccepting?_eq]
  cases first : rules.findIdx? fun rule => (rule.after graph (front ++ [char])).isAccepting with
  | some index =>
      rcases scan_of_findIdx? (by omega) first with ⟨rule, scanned⟩
      rw [scanned, length]
      rfl
  | none =>
      rw [scan_append]
      · rfl
      · intro other longer bounded language listed
        rcases List.mem_map.mp listed with ⟨rule, member, rfl⟩
        have whole : other = (front ++ [char]).length := by omega
        rw [whole, List.take_length, Rule.mem_language,
          List.findIdx?_eq_none_iff.mp first rule member]
        exact Bool.false_ne_true

end Machine

end Prefixes

namespace Session

variable {bundle : Bundle} {session next : Session} {cycle : Cycle}

theorem step_of_took (took : Took bundle session cycle next) :
    session.step bundle = some (cycle, next) := by
  cases took with
  | unmatched reads scanned =>
      rw [reads] at scanned
      simp only [step, reads, scanned]
  | refused reads scanned empty repeats =>
      rw [reads] at scanned
      simp only [step, reads, scanned]
      rw [if_pos ⟨empty, repeats⟩]
      rfl
  | @kept found unfinished scanned moves =>
      rcases List.exists_cons_of_ne_nil unfinished with ⟨char, tail, reads⟩
      rw [reads] at scanned
      simp only [step, reads, scanned]
      rw [if_neg fun refusal => moves refusal.1 refusal.2, advanced, reads]

end Session

namespace Machine

def session (input : List Char) (machine : Machine) : Session where
  rest := input.drop machine.start
  position := machine.start
  state := machine.state
  line := machine.line
  visited := machine.visited
  errors := machine.errors
  stats := machine.stats

def effect (machine : Machine) (unit : Option String) : Effect :=
  ⟨machine.state, machine.line, machine.lastAccept - machine.start, unit⟩

structure InRange (input : List Char) (machine : Machine) : Prop where
  unfinished : machine.start < input.length
  start_le : machine.start ≤ machine.lastAccept
  accept_le : machine.lastAccept ≤ machine.scan
  scan_le : machine.scan ≤ input.length

/-- The rules are those of the current state, and their simulations have run side by side. -/
structure Equipped (bundle : Bundle) (machine : Machine) (front : List Char) : Prop where
  rules : machine.rules = bundle.rules machine.state
  simulations : machine.simulations = machine.rules.map (Rule.after bundle.graph front)

/-- A match whose first actions are done: they have made the registers what they are. -/
structure Performing (bundle : Bundle) (input : List Char) (session : Session) (machine : Machine)
    (winner : Winner) (found : Match) (done : List Action) (line : Nat) : Prop where
  phase : machine.phase = .acting winner
  range : machine.InRange input
  equipped : ∃ front, machine.Equipped bundle front
  rules : winner.rules = bundle.rules winner.before
  index : winner.rules[winner.index]? = some found.rule
  scanned : MaximalMunch.scan bundle.graph winner.rules (input.drop machine.start) = some found
  split : found.rule.actions = done ++ winner.left
  effect : machine.effect winner.unit =
    Effect.applyAll ⟨winner.before, line, found.length, found.rule.unit⟩ done
  shows : { machine.session input with state := winner.before, line := line } = session

structure Performed (bundle : Bundle) (input : List Char) (session : Session) (machine : Machine)
    (winner : Winner) (found : Match) : Prop where
  range : machine.InRange input
  equipped : ∃ front, machine.Equipped bundle front
  scanned : MaximalMunch.scan bundle.graph (bundle.rules session.state) session.rest = some found
  effect : session.effectOf found = machine.effect winner.unit
  shows : ∃ line, { machine.session input with state := winner.before, line := line } = session

/-- The machine is in a cycle of the session, or before it. -/
inductive Amid (bundle : Bundle) (input : List Char) (session : Session) (machine : Machine) : Prop
  | ready {front : List Char} (phase : machine.phase = .ready)
      (bounded : machine.start ≤ input.length) (equipped : machine.Equipped bundle front)
      (shows : machine.session input = session)
  | scanning {best : Option (Nat × Nat)} (phase : machine.phase = .scanning best)
      (range : machine.InRange input)
      (equipped : machine.Equipped bundle (input.extract machine.start machine.scan))
      (shows : machine.session input = session) (fresh : machine.lastAccept = machine.start)
      (found : best = (MaximalMunch.scan bundle.graph machine.rules
        (input.extract machine.start machine.scan)).map (Match.place machine.start))
  | scanned {best : Option (Nat × Nat)} {front : List Char} (phase : machine.phase = .scanned best)
      (range : machine.InRange input) (equipped : machine.Equipped bundle front)
      (shows : machine.session input = session)
      (found : best = (MaximalMunch.scan bundle.graph machine.rules session.rest).map
        (Match.place machine.start))
      (stops : ∀ index stop, best = some (index, stop) → machine.lastAccept = stop)
  | acting {winner : Winner} {found : Match} {done : List Action} {line : Nat}
      (performing : Performing bundle input session machine winner found done line)

/-- How far the machine is from the end of a cycle. -/
def rank (input : List Char) (machine : Machine) : Nat × Nat :=
  match machine.phase with
  | .ready => (3, 0)
  | .scanning _ => (2, input.length - machine.scan)
  | .scanned _ => (1, 0)
  | .acting winner => (0, winner.left.length)

theorem rank_acting {input : List Char} {machine : Machine} {winner : Winner}
    (phase : machine.phase = .acting winner) : machine.rank input = (0, winner.left.length) := by
  rw [rank, phase]

/-- A step leads on within the cycle, or to the end of it. -/
inductive Onward (bundle : Bundle) (input : List Char) (session : Session)
    (machine next : Machine) : Prop
  | within (amid : next.Amid bundle input session) (tokens : next.tokens = machine.tokens)
      (less : Prod.Lex (· < ·) (· < ·) (next.rank input) (machine.rank input))
  | behind {cycle : Cycle} {later : Session} (stepped : session.step bundle = some (cycle, later))
      (amid : next.Amid bundle input later) (ready : next.phase = .ready)
      (tokens : next.tokens.toList = machine.tokens.toList ++ cycle.token?.toList)

end Machine

section Accesses

variable {input : List Char} {start stop position : Nat}

theorem characterAt_eq_ok {char : Char} (reads : input[position]? = some char) :
    characterAt input position = .ok char := by
  rw [characterAt, reads]

theorem ruleAt_eq_ok {rules : List Rule} {index : Nat} {rule : Rule}
    (listed : rules[index]? = some rule) : ruleAt rules index = .ok rule := by
  rw [ruleAt, listed]

theorem sliceOf_eq_ok (ordered : start ≤ stop) (bounded : stop ≤ input.length) :
    sliceOf input start stop = .ok (input.extract start stop) :=
  if_pos ⟨ordered, bounded⟩

theorem lengthOf_eq_ok (ordered : start ≤ stop) : lengthOf start stop = .ok (stop - start) :=
  if_pos ordered

end Accesses

section Stretches

variable {input : List Char} {start stop : Nat}

@[simp]
theorem extract_self (input : List Char) (start : Nat) : input.extract start start = [] := by
  rw [List.extract, Nat.sub_self, List.take_zero]

theorem length_extract (start : Nat) (bounded : stop ≤ input.length) :
    (input.extract start stop).length = stop - start := by
  rw [List.extract, List.length_take, List.length_drop]
  omega

theorem extract_concat {char : Char} (ordered : start ≤ stop) (reads : input[stop]? = some char) :
    input.extract start (stop + 1) = input.extract start stop ++ [char] := by
  have place : stop + 1 - start = (stop - start) + 1 := by omega
  have next : (input.drop start)[stop - start]? = some char := by
    rw [List.getElem?_drop, Nat.add_sub_cancel' ordered]
    exact reads
  calc input.extract start (stop + 1)
    _ = (input.drop start).take ((stop - start) + 1) := by rw [List.extract, place]
    _ = (input.drop start).take (stop - start) ++ [char] := by
        rw [List.take_add_one, next, Option.toList_some]

theorem extract_append_drop (input : List Char) (ordered : start ≤ stop) :
    input.extract start stop ++ input.drop stop = input.drop start := by
  calc input.extract start stop ++ input.drop stop
    _ = (input.drop start).take (stop - start) ++ (input.drop start).drop (stop - start) := by
        rw [List.drop_drop, Nat.add_sub_cancel' ordered, List.extract]
    _ = input.drop start := List.take_append_drop _ _

end Stretches

namespace Machine

section Steps

variable {bundle : Bundle} {input : List Char} {session : Session} {machine : Machine}
  {front : List Char} {char : Char}

theorem reset_after (graph : Graph) (front : List Char) (rules : List Rule) :
    (rules.map (Rule.after graph front)).map (Simulation.reset graph) =
      rules.map (Rule.after graph []) := by
  rw [List.map_map]
  apply List.map_congr_left
  intro rule member
  show Simulation.start graph (rule.after graph front).fragment = _
  rw [Rule.after, Simulation.fragment_run]
  rfl

theorem Equipped.reset (equipped : machine.Equipped bundle front) :
    (machine.reset bundle.graph).Equipped bundle [] := by
  refine ⟨equipped.rules, ?_⟩
  show machine.simulations.map _ = _
  rw [equipped.simulations]
  exact reset_after bundle.graph front machine.rules

theorem onward_of_ready (phase : machine.phase = .ready) (unfinished : machine.start < input.length)
    (equipped : machine.Equipped bundle front) (shows : machine.session input = session) :
    ∃ next, machine.step bundle input = .ok (some next) ∧
      Onward bundle input session machine next := by
  refine ⟨machine.startScan bundle.graph, ?_, .within ?_ rfl ?_⟩
  · rw [step, phase]
    exact if_pos unfinished
  · have fed := equipped.reset
    have empty : input.extract machine.start machine.start = [] := extract_self _ _
    apply Amid.scanning
    · rfl
    · exact ⟨unfinished, Nat.le_refl _, Nat.le_refl _, Nat.le_of_lt unfinished⟩
    · show Equipped bundle _ (input.extract machine.start machine.start)
      rw [empty]
      exact ⟨fed.rules, fed.simulations⟩
    · exact shows
    · rfl
    · show _ = Option.map _ (MaximalMunch.scan _ _ (input.extract machine.start machine.start))
      rw [empty]
      rfl
  · rw [rank, rank, phase]
    exact .left _ _ (by decide)

theorem map_consume (graph : Graph) (front : List Char) (char : Char) (rules : List Rule) :
    (rules.map (Rule.after graph front)).map (consume graph char) =
      rules.map (Rule.after graph (front ++ [char])) := by
  rw [List.map_map]
  apply List.map_congr_left
  intro rule member
  show consume graph char (rule.after graph front) = _
  rw [consume_eq_step, Rule.after_append]
  rfl

theorem amid_endScan {best : Option (Nat × Nat)} (range : machine.InRange input)
    (equipped : machine.Equipped bundle (input.extract machine.start machine.scan))
    (shows : machine.session input = session)
    (found : best = (MaximalMunch.scan bundle.graph machine.rules
      (input.extract machine.start machine.scan)).map (Match.place machine.start))
    (final : MaximalMunch.scan bundle.graph machine.rules (input.drop machine.start) =
      MaximalMunch.scan bundle.graph machine.rules (input.extract machine.start machine.scan)) :
    (machine.endScan best).Amid bundle input session := by
  refine .scanned rfl ?_ ⟨equipped.rules, equipped.simulations⟩ shows ?_ ?_
  · cases scanned : MaximalMunch.scan bundle.graph machine.rules
        (input.extract machine.start machine.scan) with
    | none =>
        rw [scanned] at found
        rw [found]
        exact ⟨range.unfinished, range.start_le, range.accept_le, range.scan_le⟩
    | some winner =>
        rw [scanned] at found
        have bounded := (length_le_of_scan scanned).2
        have read := range.accept_le
        have start := range.start_le
        rw [length_extract machine.start range.scan_le] at bounded
        rw [found]
        refine ⟨range.unfinished, Nat.le_add_right _ _, ?_, range.scan_le⟩
        show machine.start + winner.length ≤ machine.scan
        omega
  · rw [← shows]
    exact found.trans (congrArg _ final.symm)
  · rintro index stop rfl
    rfl

theorem amid_look {best : Option (Nat × Nat)} (range : machine.InRange input)
    (equipped : machine.Equipped bundle (front ++ [char]))
    (stretch : input.extract machine.start machine.scan = front ++ [char])
    (shows : machine.session input = session) (fresh : machine.lastAccept = machine.start)
    (found : best = (MaximalMunch.scan bundle.graph machine.rules front).map
      (Match.place machine.start)) : (machine.look best).Amid bundle input session := by
  have ordered : machine.start ≤ machine.scan := Nat.le_trans range.start_le range.accept_le
  have place : machine.scan = machine.start + (front.length + 1) := by
    have length := length_extract machine.start range.scan_le
    rw [stretch, List.length_append, List.length_singleton] at length
    omega
  have better : ((firstAccepting? machine.simulations).map fun index => (index, machine.scan)).or
      best = (MaximalMunch.scan bundle.graph machine.rules
        (input.extract machine.start machine.scan)).map (Match.place machine.start) := by
    rw [equipped.simulations, found, stretch, scan_concat, ← place]
  rw [← stretch] at equipped
  rw [look]
  split
  case isTrue dead =>
    apply amid_endScan range equipped shows better
    rw [← extract_append_drop input ordered]
    apply scan_append_of_dead
    rw [equipped.simulations, List.all_map, List.all_eq_true] at dead
    exact dead
  case isFalse =>
    exact .scanning rfl ⟨range.unfinished, range.start_le, range.accept_le, range.scan_le⟩
      ⟨equipped.rules, equipped.simulations⟩ shows fresh better

theorem InRange.reads (range : machine.InRange input) :
    ∃ char, input[machine.start]? = some char ∧
      input.drop machine.start = char :: input.drop (machine.start + 1) :=
  ⟨_, List.getElem?_eq_getElem range.unfinished, List.drop_eq_getElem_cons range.unfinished⟩

@[simp]
theorem tokens_look (machine : Machine) (best : Option (Nat × Nat)) :
    (machine.look best).tokens = machine.tokens := by
  rw [look]
  split <;> rfl

theorem rank_look (machine : Machine) (best : Option (Nat × Nat)) :
    (machine.look best).rank input = (1, 0) ∨
      (machine.look best).rank input = (2, input.length - machine.scan) := by
  rw [look]
  split
  case isTrue => exact .inl rfl
  case isFalse => exact .inr rfl

theorem onward_of_scanning {best : Option (Nat × Nat)} (phase : machine.phase = .scanning best)
    (range : machine.InRange input)
    (equipped : machine.Equipped bundle (input.extract machine.start machine.scan))
    (shows : machine.session input = session) (fresh : machine.lastAccept = machine.start)
    (found : best = (MaximalMunch.scan bundle.graph machine.rules
      (input.extract machine.start machine.scan)).map (Match.place machine.start)) :
    ∃ next, machine.step bundle input = .ok (some next) ∧
      Onward bundle input session machine next := by
  have ordered : machine.start ≤ machine.scan := Nat.le_trans range.start_le range.accept_le
  rcases Nat.lt_or_ge machine.scan input.length with more | ended
  · have reads : input[machine.scan]? = some input[machine.scan] := List.getElem?_eq_getElem more
    refine ⟨(machine.feed bundle.graph input[machine.scan]).look best, ?_, .within ?_ ?_ ?_⟩
    · rw [step, phase]
      show some <$> machine.read _ _ _ = _
      rw [read, if_pos more, characterAt_eq_ok reads]
      rfl
    · refine amid_look ⟨range.unfinished, range.start_le, Nat.le_succ_of_le range.accept_le, more⟩
        ⟨equipped.rules, ?_⟩ (extract_concat ordered reads) shows fresh found
      have fed := map_consume bundle.graph (input.extract machine.start machine.scan)
        input[machine.scan] machine.rules
      rw [← equipped.simulations] at fed
      exact fed
    · exact tokens_look _ best
    · rw [rank.eq_def input machine, phase]
      rcases rank_look (machine.feed bundle.graph input[machine.scan]) best with last | read
      · rw [last]
        exact .left _ _ (by decide)
      · rw [read]
        exact .right _ (Nat.sub_succ_lt_self _ _ more)
  · refine ⟨machine.endScan best, ?_, .within ?_ rfl ?_⟩
    · rw [step, phase]
      show some <$> machine.read _ _ _ = _
      rw [read, if_neg (Nat.not_lt_of_le ended)]
      rfl
    · apply amid_endScan range equipped shows found
      rw [← extract_append_drop input ordered, List.drop_eq_nil_of_le ended, List.append_nil]
    · rw [rank, rank, phase]
      exact .left _ _ (by decide)

theorem session_past {tail : List Char} (reads : input.drop machine.start = char :: tail) :
    (machine.past char).session input = ((machine.session input).skip char tail).2 := by
  have rest : input.drop (machine.start + 1) = tail := by
    rw [← List.drop_drop, reads]
    rfl
  rw [session, past, Session.skip, rest]
  rfl

theorem amid_past (unfinished : machine.start < input.length)
    (equipped : machine.Equipped bundle front) :
    (machine.past char).Amid bundle input ((machine.past char).session input) :=
  .ready rfl unfinished ⟨equipped.rules, equipped.simulations⟩ rfl

theorem onward_of_scanned {best : Option (Nat × Nat)} (phase : machine.phase = .scanned best)
    (range : machine.InRange input) (equipped : machine.Equipped bundle front)
    (found : best = (MaximalMunch.scan bundle.graph machine.rules (input.drop machine.start)).map
      (Match.place machine.start)) :
    ∃ next, machine.step bundle input = .ok (some next) ∧
      Onward bundle input (machine.session input) machine next := by
  cases scanned : MaximalMunch.scan bundle.graph machine.rules (input.drop machine.start) with
  | none =>
      rw [scanned] at found
      cases found
      rcases range.reads with ⟨char, reads, rest⟩
      refine ⟨machine.past char, ?_, ?_⟩
      · rw [step, phase]
        show some <$> machine.recover input = _
        rw [recover, characterAt_eq_ok reads]
        rfl
      · rw [equipped.rules] at scanned
        have took : Session.Took bundle (machine.session input) _ _ := .unmatched rest scanned
        rw [← session_past rest] at took
        apply Onward.behind (Session.step_of_took took) (amid_past range.unfinished equipped) rfl
        exact (List.append_nil _).symm
  | some winning =>
      rw [scanned] at found
      cases found
      rcases scan_eq_some_iff.mp scanned with ⟨listed, wins⟩
      have bounded := wins.bounded
      rw [List.length_drop] at bounded
      have inside : machine.start + winning.length ≤ input.length := by
        have unfinished := range.unfinished
        omega
      refine ⟨machine.won winning.index (machine.start + winning.length) winning.rule, ?_,
        .within ?_ rfl ?_⟩
      · rw [step, phase]
        show some <$> machine.win winning.index (machine.start + winning.length) = _
        rw [win, ruleAt_eq_ok listed]
        rfl
      · have begun : (machine.won winning.index (machine.start + winning.length)
            winning.rule).effect winning.rule.unit =
            ⟨machine.state, machine.line, winning.length, winning.rule.unit⟩ := by
          show Effect.mk _ _ (machine.start + winning.length - machine.start) _ = _
          rw [Nat.add_sub_cancel_left]
          rfl
        apply Amid.acting
        exact {
          phase := rfl
          range := ⟨range.unfinished, Nat.le_add_right _ _, Nat.le_refl _, inside⟩
          equipped := ⟨front, equipped.rules, equipped.simulations⟩
          rules := equipped.rules
          index := listed
          scanned := scanned
          split := (List.nil_append _).symm
          effect := begun
          shows := rfl }
      · rw [rank.eq_def input machine, phase]
        exact .left _ _ (by decide)

theorem Equipped.back (equipped : machine.Equipped bundle front) (stop : Nat)
    (retained : List Char) :
    (machine.back bundle.graph stop retained).Equipped bundle retained := by
  refine ⟨equipped.rules, ?_⟩
  show (machine.reset bundle.graph).simulations.map _ = _
  rw [equipped.reset.simulations, List.map_map]
  rfl

structure Acted (bundle : Bundle) (input : List Char) (machine : Machine) (winner : Winner)
    (action : Action) (unit : Option String) (next : Machine) : Prop where
  done : machine.act bundle input winner action = .ok next
  phase : next.phase = .acting { winner with unit := unit }
  range : next.InRange input
  equipped : ∃ front, next.Equipped bundle front
  effect : next.effect unit = (machine.effect winner.unit).apply action
  start : next.start = machine.start
  visited : next.visited = machine.visited
  errors : next.errors = machine.errors
  stats : next.stats = machine.stats
  tokens : next.tokens = machine.tokens

theorem acted_goBack (range : machine.InRange input) (equipped : machine.Equipped bundle front)
    (winner : Winner) (count : Nat) :
    ∃ next, machine.Acted bundle input winner (.goBack count) winner.unit next := by
  have stop_le : min (machine.start + count) machine.lastAccept ≤ input.length :=
    Nat.le_trans (Nat.min_le_right _ _) (Nat.le_trans range.accept_le range.scan_le)
  have start_le : machine.start ≤ min (machine.start + count) machine.lastAccept :=
    Nat.le_min.mpr ⟨Nat.le_add_right _ _, range.start_le⟩
  have kept : min (machine.start + count) machine.lastAccept - machine.start =
      min count (machine.lastAccept - machine.start) := by omega
  have sliced := sliceOf_eq_ok start_le stop_le
  have acting : Equipped bundle { machine with phase := .acting winner } front :=
    ⟨equipped.rules, equipped.simulations⟩
  have again := acting.back (min (machine.start + count) machine.lastAccept)
    (input.extract machine.start (min (machine.start + count) machine.lastAccept))
  refine ⟨_, ?_, rfl, ?_, ⟨_, again⟩, ?_, rfl, rfl, rfl, rfl, rfl⟩
  · show _ <$> sliceOf input machine.start (min (machine.start + count) machine.lastAccept) = _
    rw [sliced]
    rfl
  · exact ⟨range.unfinished, start_le, Nat.le_refl _, stop_le⟩
  · show Effect.mk _ _ (min (machine.start + count) machine.lastAccept - machine.start) _ = _
    rw [kept]
    rfl

theorem exists_acted (range : machine.InRange input) (equipped : machine.Equipped bundle front)
    (winner : Winner) (action : Action) :
    ∃ unit next, machine.Acted bundle input winner action unit next := by
  cases action with
  | switchState target =>
      exact ⟨winner.unit, _, rfl, rfl, ⟨range.unfinished, range.start_le, range.accept_le,
        range.scan_le⟩, ⟨[], rfl, rfl⟩, rfl, rfl, rfl, rfl, rfl, rfl⟩
  | goBack count => exact ⟨winner.unit, acted_goBack range equipped winner count⟩
  | suppress =>
      exact ⟨none, _, rfl, rfl, ⟨range.unfinished, range.start_le, range.accept_le,
        range.scan_le⟩, ⟨front, equipped.rules, equipped.simulations⟩, rfl, rfl, rfl, rfl, rfl, rfl⟩
  | incrementLine =>
      exact ⟨winner.unit, _, rfl, rfl, ⟨range.unfinished, range.start_le, range.accept_le,
        range.scan_le⟩, ⟨front, equipped.rules, equipped.simulations⟩, rfl, rfl, rfl, rfl, rfl, rfl⟩

variable {winner : Winner} {found : Match} {done : List Action} {line : Nat}

theorem step_of_nil (phase : machine.phase = .acting winner) (ended : winner.left = []) :
    machine.step bundle input = some <$> machine.conclude input winner := by
  simp only [step, phase, ended]

theorem step_of_cons {action : Action} {left : List Action}
    (phase : machine.phase = .acting winner) (more : winner.left = action :: left) :
    machine.step bundle input =
      some <$> machine.act bundle input { winner with left := left } action := by
  simp only [step, phase, more]

theorem Performing.onward_of_cons {action : Action} {left : List Action}
    (performing : Performing bundle input session machine winner found done line)
    (more : winner.left = action :: left) : ∃ next, machine.step bundle input = .ok (some next) ∧
      Onward bundle input session machine next := by
  rcases performing.equipped with ⟨front, equipped⟩
  rcases exists_acted performing.range equipped { winner with left := left } action with
    ⟨unit, next, acted⟩
  have again : Performing bundle input session next { winner with left := left, unit := unit }
      found (done ++ [action]) line := by
    refine ⟨acted.phase, acted.range, acted.equipped, performing.rules, performing.index,
      ?_, ?_, ?_, ?_⟩
    · rw [acted.start]
      exact performing.scanned
    · rw [List.append_assoc, performing.split, more]
      rfl
    · show next.effect unit = _
      rw [acted.effect, Effect.applyAll, List.foldl_append]
      exact congrArg (Effect.apply · action) performing.effect
    · rw [← performing.shows, Machine.session, Machine.session, acted.start, acted.visited,
        acted.errors, acted.stats]
  refine ⟨next, ?_, .within (.acting again) acted.tokens ?_⟩
  · rw [step_of_cons performing.phase more, acted.done]
    rfl
  · rw [rank_acting performing.phase, rank_acting acted.phase, more]
    exact .right _ (Nat.lt_succ_self _)

theorem emit_eq_ok (range : machine.InRange input) (unit : Option String) :
    machine.emit input unit = .ok (machine.behind unit
      (input.extract machine.start machine.lastAccept) (machine.lastAccept - machine.start)) := by
  rw [emit, sliceOf_eq_ok range.start_le (Nat.le_trans range.accept_le range.scan_le)]
  show (lengthOf _ _ >>= _) = _
  rw [lengthOf_eq_ok range.start_le]
  rfl

theorem session_behind (range : machine.InRange input) (unit : Option String) (span : List Char) :
    (machine.behind unit span (machine.lastAccept - machine.start)).session input =
      { machine.session input with
        rest := (input.drop machine.start).drop (machine.effect unit).kept
        position := machine.start + (machine.effect unit).kept
        stats := (Session.keep machine.stats (machine.effect unit) span).2 } := by
  have stop : machine.start + (machine.effect unit).kept = machine.lastAccept :=
    Nat.add_sub_cancel' range.start_le
  rw [List.drop_drop, stop]
  cases unit with
  | none => rfl
  | some tag => rfl

theorem tokens_behind (machine : Machine) (unit : Option String) (span : List Char)
    (length position : Nat) (state : String) (found : Option Match) :
    (machine.behind unit span length).tokens.toList = machine.tokens.toList ++
      (Cycle.token? ⟨position, state, found, span,
        (Session.keep machine.stats (machine.effect unit) span).1⟩).toList := by
  cases unit with
  | none => exact (List.append_nil _).symm
  | some tag => exact Array.toList_push

theorem amid_behind (range : machine.InRange input) (equipped : machine.Equipped bundle front)
    (unit : Option String) (span : List Char) :
    (machine.behind unit span (machine.lastAccept - machine.start)).Amid bundle input
      ((machine.behind unit span (machine.lastAccept - machine.start)).session input) := by
  have bounded : machine.lastAccept ≤ input.length := Nat.le_trans range.accept_le range.scan_le
  cases unit with
  | none => exact .ready rfl bounded ⟨equipped.rules, equipped.simulations⟩ rfl
  | some tag => exact .ready rfl bounded ⟨equipped.rules, equipped.simulations⟩ rfl

theorem Performing.performed
    (performing : Performing bundle input session machine winner found done line)
    (ended : winner.left = []) : Performed bundle input session machine winner found := by
  rcases performing with
    ⟨phase, range, equipped, rules, index, scanned, split, effect, shows⟩
  rw [rules] at scanned
  rw [ended, List.append_nil] at split
  rw [← split] at effect
  cases shows
  exact ⟨range, equipped, scanned, effect.symm, line, rfl⟩

variable {visited : List String}

theorem Performed.onward_of_kept
    (performed : Performed bundle input session machine winner found)
    (brought : visited = if (machine.effect winner.unit).kept = 0 then
      machine.state :: session.closed else [])
    (moves : (session.effectOf found).kept = 0 →
      (session.effectOf found).state ∉ session.closed)
    (steps : machine.step bundle input =
      some <$> { machine with visited := visited }.emit input winner.unit) :
    ∃ next, machine.step bundle input = .ok (some next) ∧
      Onward bundle input session machine next := by
  rcases performed with ⟨range, ⟨front, equipped⟩, scanned, effect, line, rfl⟩
  have same : InRange input { machine with visited := visited } :=
    ⟨range.unfinished, range.start_le, range.accept_le, range.scan_le⟩
  have fit : Equipped bundle { machine with visited := visited } front :=
    ⟨equipped.rules, equipped.simulations⟩
  have unfinished : input.drop machine.start ≠ [] := by
    rcases range.reads with ⟨char, reads, rest⟩
    rw [rest]
    exact List.cons_ne_nil _ _
  have took : Session.Took bundle
      { machine.session input with state := winner.before, line := line } _ _ :=
    .kept unfinished scanned moves
  have behind : Session.advanced
      { machine.session input with state := winner.before, line := line }
        (machine.effect winner.unit) =
      (Machine.behind { machine with visited := visited } winner.unit
        (input.extract machine.start machine.lastAccept)
          (machine.lastAccept - machine.start)).session input := by
    rw [session_behind same, brought]
    rfl
  rw [effect, behind] at took
  refine ⟨_, ?_, .behind (Session.step_of_took took) (amid_behind same fit _ _) ?_ ?_⟩
  · rw [steps, emit_eq_ok same]
    rfl
  · rw [Machine.behind.eq_def]
    split <;> rfl
  · exact tokens_behind { machine with visited := visited } winner.unit _ _ _ _ _

theorem Performed.onward_of_refused
    (performed : Performed bundle input session machine winner found)
    (empty : (session.effectOf found).kept = 0)
    (repeats : (session.effectOf found).state ∈ session.closed)
    (steps : machine.step bundle input =
      some <$> { machine with visited := visited }.recover input) :
    ∃ next, machine.step bundle input = .ok (some next) ∧
      Onward bundle input session machine next := by
  -- An empty match that is refused counts for as little as no match.
  rcases performed with ⟨range, ⟨front, equipped⟩, scanned, effect, line, rfl⟩
  rcases range.reads with ⟨char, reads, rest⟩
  have took : Session.Took bundle
      { machine.session input with state := winner.before, line := line } _ _ :=
    .refused rest scanned empty repeats
  have past : (Session.skip (Session.moved
      { machine.session input with state := winner.before, line := line }
        (machine.effect winner.unit)) char (input.drop (machine.start + 1))).2 =
      (Machine.past { machine with visited := visited } char).session input := rfl
  rw [effect, past] at took
  have fit : Equipped bundle { machine with visited := visited } front :=
    ⟨equipped.rules, equipped.simulations⟩
  refine ⟨_, ?_, .behind (Session.step_of_took took) (amid_past range.unfinished fit) rfl ?_⟩
  · rw [steps, recover, characterAt_eq_ok reads]
    rfl
  · exact (List.append_nil _).symm

theorem Performing.onward_of_nil
    (performing : Performing bundle input session machine winner found done line)
    (ended : winner.left = []) : ∃ next, machine.step bundle input = .ok (some next) ∧
      Onward bundle input session machine next := by
  have performed := performing.performed ended
  have steps : machine.step bundle input = some <$> machine.conclude input winner :=
    step_of_nil performing.phase ended
  have closed : (if machine.visited.isEmpty then [winner.before] else machine.visited) =
      session.closed := by
    rw [← performing.shows]
    rfl
  have kept : (session.effectOf found).kept = machine.lastAccept - machine.start :=
    congrArg Effect.kept performed.effect
  have state : (session.effectOf found).state = machine.state :=
    congrArg Effect.state performed.effect
  rw [conclude, closed] at steps
  by_cases empty : machine.lastAccept = machine.start
  · have nothing : (session.effectOf found).kept = 0 := by
      rw [kept, empty, Nat.sub_self]
    rw [if_pos empty] at steps
    by_cases repeats : machine.state ∈ session.closed
    · rw [if_pos repeats] at steps
      exact performed.onward_of_refused nothing (state ▸ repeats) steps
    · rw [if_neg repeats] at steps
      refine performed.onward_of_kept ?_ (fun _ => state ▸ repeats) steps
      rw [← performed.effect, if_pos nothing]
  · have nonempty : (session.effectOf found).kept ≠ 0 := by
      have start_le := performing.range.start_le
      omega
    rw [if_neg empty] at steps
    refine performed.onward_of_kept ?_ (absurd · nonempty) steps
    rw [← performed.effect, if_neg nonempty]

/-- No access fails: a machine that stands amid a cycle makes its step, or is at the end. -/
theorem Amid.step (amid : machine.Amid bundle input session) :
    (machine.step bundle input = .ok none ∧ machine.phase = .ready ∧ session.rest = []) ∨
      ∃ next, machine.step bundle input = .ok (some next) ∧
        Onward bundle input session machine next := by
  cases amid with
  | ready phase bounded equipped shows =>
      rcases Nat.lt_or_ge machine.start input.length with unfinished | ended
      · exact .inr (onward_of_ready phase unfinished equipped shows)
      · refine .inl ⟨?_, phase, ?_⟩
        · rw [Machine.step, phase]
          exact if_neg (Nat.not_lt_of_le ended)
        · rw [← shows]
          exact List.drop_eq_nil_of_le ended
  | scanning phase range equipped shows fresh found =>
      exact .inr (onward_of_scanning phase range equipped shows fresh found)
  | scanned phase range equipped shows found stops =>
      cases shows
      exact .inr (onward_of_scanned phase range equipped found)
  | @acting winner found done line performing =>
      cases left : winner.left with
      | nil => exact .inr (performing.onward_of_nil left)
      | cons action later => exact .inr (performing.onward_of_cons left)

end Steps

end Machine

end MaximalMunch
