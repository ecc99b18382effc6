import MaximalMunch.Proofs.ComparedLexers
import MaximalMunch.Proofs.InputCoverage
import MaximalMunch.Proofs.ScannerSafety

/-!
What becomes of a match, told by the list of its rule's actions as a whole. The last switch gives
the lexer state, all line feeds count, the match is kept up to the first place that it is given
back to, and anything that suppresses it does. So the order of the actions matters for switches
alone.
-/

namespace MaximalMunch

attribute [ext] Effect

namespace Effect

variable (effect : Effect) (actions : List Action)

@[simp]
theorem applyAll_concat (action : Action) :
    effect.applyAll (actions ++ [action]) = (effect.applyAll actions).apply action :=
  List.foldl_append

theorem state_applyAll : (effect.applyAll actions).state =
    (actions.filterMap Action.target?).getLast?.getD effect.state := by
  induction actions using List.reverseRecOn with
  | nil => rfl
  | append_singleton actions action ih =>
      rw [applyAll_concat, List.filterMap_append]
      cases action with
      | switchState target => simp [apply, Action.target?]
      | goBack count => simpa [apply, Action.target?] using ih
      | suppress => simpa [apply, Action.target?] using ih
      | incrementLine => simpa [apply, Action.target?] using ih

theorem line_applyAll :
    (effect.applyAll actions).line = effect.line + actions.count .incrementLine := by
  induction actions using List.reverseRecOn with
  | nil => rfl
  | append_singleton actions action ih =>
      rw [applyAll_concat, List.count_append]
      cases action with
      | switchState target => simpa [apply] using ih
      | goBack count => simpa [apply] using ih
      | suppress => simpa [apply] using ih
      | incrementLine => simp [apply, ih, Nat.add_assoc]

theorem unit_applyAll :
    (effect.applyAll actions).unit = if .suppress ∈ actions then none else effect.unit := by
  induction actions using List.reverseRecOn with
  | nil => rfl
  | append_singleton actions action ih =>
      rw [applyAll_concat]
      cases action with
      | switchState target => simpa [apply] using ih
      | goBack count => simpa [apply] using ih
      | suppress => simp [apply]
      | incrementLine => simpa [apply] using ih

/-- No action lengthens what is kept, and every action that gives back shortens it enough. -/
theorem isLeast_kept_applyAll :
    IsLeast (insert effect.kept {count | .goBack count ∈ actions})
      (effect.applyAll actions).kept := by
  induction actions using List.reverseRecOn with
  | nil => simp [applyAll]
  | append_singleton actions action ih =>
      rw [applyAll_concat]
      cases action with
      | switchState target => simpa [apply] using ih
      | goBack count =>
          have wider : insert effect.kept {other | .goBack other ∈ actions ++ [.goBack count]} =
              insert count (insert effect.kept {other | .goBack other ∈ actions}) := by
            ext other
            simp only [Set.mem_insert_iff, Set.mem_ofPred_eq, List.mem_append, List.mem_singleton,
              Action.goBack.injEq]
            tauto
          rw [wider]
          exact ih.insert count
      | suppress => simpa [apply] using ih
      | incrementLine => simpa [apply] using ih

variable {actions} {others : List Action}

theorem applyAll_perm (same : actions.Perm others)
    (targets : actions.filterMap Action.target? = others.filterMap Action.target?) :
    effect.applyAll actions = effect.applyAll others := by
  ext : 1
  · rw [state_applyAll, state_applyAll, targets]
  · rw [line_applyAll, line_applyAll, same.count_eq]
  · have alike : {count | Action.goBack count ∈ actions} = {count | .goBack count ∈ others} :=
      Set.ext fun count => same.mem_iff
    have least := effect.isLeast_kept_applyAll actions
    rw [alike] at least
    exact least.unique (effect.isLeast_kept_applyAll others)
  · rw [unit_applyAll, unit_applyAll]
    simp only [same.mem_iff]

end Effect

/-- The same rule with its actions in another order, the switches among them as before. -/
structure Rule.Rearranges (rule other : Rule) : Prop where
  unit : rule.unit = other.unit
  fragment : rule.fragment = other.fragment
  actions : rule.actions.Perm other.actions
  targets : rule.targets = other.targets

/-- The same cycle with the same rule in a match of the same length. -/
def Cycle.Retells (cycle answer : Cycle) : Prop :=
  ∃ winner, answer = { cycle with found := winner } ∧
    winner.map (Match.place cycle.position) = cycle.found.map (Match.place cycle.position)

namespace Session

variable {bundle : Bundle} {input : String} {first session next last : Session} {cycle : Cycle}
  {trace : List (Cycle × Session)} {found : Match}

/-- The states that empty matches at the position have led from or to. -/
def passedThrough (trace : List (Cycle × Session)) (position : Nat) : Set String :=
  {state | ∃ entry ∈ trace, entry.1.position = position ∧ entry.1.span = [] ∧
    (state = entry.1.state ∨ state = entry.2.state)}

theorem mem_passedThrough_concat {position : Nat} {state : String} :
    state ∈ passedThrough (trace ++ [(cycle, next)]) position ↔
      state ∈ passedThrough trace position ∨ cycle.position = position ∧ cycle.span = [] ∧
        (state = cycle.state ∨ state = next.state) := by
  simp only [passedThrough, Set.mem_ofPred_eq, List.mem_append, List.mem_singleton, or_and_right,
    exists_or, exists_eq_left]

theorem closed_of_took (took : Took bundle session cycle next) :
    cycle.position = session.position ∧ cycle.state = session.state ∧
      (cycle.span ≠ [] ∧ session.position < next.position ∧ next.closed = [next.state] ∨
        cycle.span = [] ∧ next.position = session.position ∧
          next.closed = next.state :: session.closed) := by
  cases took with
  | unmatched input scanned =>
      exact ⟨rfl, rfl, .inl ⟨List.cons_ne_nil _ _, Nat.lt_succ_self _, rfl⟩⟩
  | refused input scanned empty repeats =>
      exact ⟨rfl, rfl, .inl ⟨List.cons_ne_nil _ _, Nat.lt_succ_self _, rfl⟩⟩
  | @kept found unfinished scanned moves =>
      refine ⟨rfl, rfl, ?_⟩
      by_cases empty : (session.effectOf found).kept = 0
      · right
        simp [closed, empty]
      · left
        refine ⟨by simp [empty, unfinished], ?_, by simp [closed, empty]⟩
        show session.position < session.position + _
        omega

/-- What the session remembers of the empty matches at its position is what the run did there. -/
theorem Runs.mem_closed_iff (run : Runs bundle first trace last) (fresh : first.visited = [])
    (state : String) :
    state ∈ last.closed ↔ state = last.state ∨ state ∈ passedThrough trace last.position := by
  suffices history : (∀ entry ∈ trace, entry.1.position ≤ last.position) ∧
      ∀ state, state ∈ last.closed ↔
        state = last.state ∨ state ∈ passedThrough trace last.position from history.2 state
  apply run.history fun trace session =>
    (∀ entry ∈ trace, entry.1.position ≤ session.position) ∧ ∀ state, state ∈ session.closed ↔
      state = session.state ∨ state ∈ passedThrough trace session.position
  · simp [closed, fresh, passedThrough]
  · rintro trace session cycle next ⟨before, same⟩ took
    rcases closed_of_took took with ⟨position, state, ⟨solid, onward, closed⟩ | ⟨empty, still, closed⟩⟩
    · have nowhere : ∀ state, state ∉ passedThrough trace next.position := by
        rintro state ⟨entry, member, place, -⟩
        have earlier := before entry member
        omega
      refine ⟨fun entry member => ?_, fun state => ?_⟩
      · rcases List.mem_append.mp member with old | new
        · exact Nat.le_trans (before entry old) (Nat.le_of_lt onward)
        · cases List.mem_singleton.mp new
          exact position ▸ Nat.le_of_lt onward
      · rw [mem_passedThrough_concat, closed, List.mem_singleton]
        simp [nowhere, solid]
    · refine ⟨fun entry member => ?_, fun other => ?_⟩
      · rw [still]
        rcases List.mem_append.mp member with old | new
        · exact before entry old
        · cases List.mem_singleton.mp new
          exact Nat.le_of_eq position
      · rw [mem_passedThrough_concat, closed, List.mem_cons, same, still]
        simp only [position, state, empty, true_and]
        tauto

theorem Tracked.mem_closed_iff (tracked : Tracked bundle session) (state : String) :
    state ∈ session.closed ↔ state = session.state ∨ state ∈ session.visited := by
  constructor
  · intro member
    unfold closed at member
    split at member
    · exact .inl (List.mem_singleton.mp member)
    · exact .inr member
  · rintro (rfl | member)
    · exact tracked.current
    · exact visited_subset_closed member

/--
What becomes of a match by `rule` from the position of the session up to `stop`, where `closed`
are the states that an empty match must not lead to.
-/
structure Settles (input : List Char) (closed : Set String) (rule : Rule) (stop retained : Nat)
    (session next : Session) (token : Option Token) : Prop where
  state : next.state = rule.targets.getLast?.getD session.state
  line : next.line = session.line + rule.actions.count .incrementLine
  least : IsLeast (insert stop
    {place | ∃ count, .goBack count ∈ rule.actions ∧ place = session.position + count}) retained
  emits : ∀ emitted, token = some emitted ↔
    ¬ (retained = session.position ∧ next.state ∈ closed) ∧
      .suppress ∉ rule.actions ∧ ∃ tag, rule.unit = some tag ∧
        emitted = ⟨tag, next.line, String.ofList (input.extract session.position retained)⟩
  refused : retained = session.position ∧ next.state ∈ closed →
    ∃ char, input[session.position]? = some char ∧
      next.position = session.position + 1 ∧
        next.errors = session.errors.push ⟨session.position, next.line, char⟩ ∧
          next.stats = { session.stats with skipped := session.stats.skipped + 1 }
  kept : ¬ (retained = session.position ∧ next.state ∈ closed) →
    next.position = retained ∧ next.errors = session.errors ∧
      next.stats.matched = session.stats.matched + (retained - session.position) ∧
        next.stats.skipped = session.stats.skipped

section Outcome

variable {closed : Set String} {rule : Rule} {stop retained : Nat} {token : Option Token}

theorem rest_of_scan {text : List Char}
    (scanned : scan bundle.graph (bundle.rules session.state) text = some found) : text ≠ [] := by
  have bounds := length_le_of_scan scanned
  exact List.ne_nil_of_length_pos (Nat.lt_of_lt_of_le bounds.1 bounds.2)

@[simp]
theorem state_effectOf (session : Session) (found : Match) :
    (session.effectOf found).state = found.rule.targets.getLast?.getD session.state :=
  Effect.state_applyAll _ _

@[simp]
theorem line_effectOf (session : Session) (found : Match) :
    (session.effectOf found).line = session.line + found.rule.actions.count .incrementLine :=
  Effect.line_applyAll _ _

@[simp]
theorem unit_effectOf (session : Session) (found : Match) :
    (session.effectOf found).unit = if .suppress ∈ found.rule.actions then none else found.rule.unit :=
  Effect.unit_applyAll _ _

theorem isLeast_retained (session : Session) (found : Match) :
    IsLeast (insert (session.position + found.length) {place | ∃ count,
        .goBack count ∈ found.rule.actions ∧ place = session.position + count})
      (session.position + (session.effectOf found).kept) := by
  have least := Effect.isLeast_kept_applyAll
    ⟨session.state, session.line, found.length, found.rule.unit⟩ found.rule.actions
  have ascending : Monotone (session.position + ·) := fun _ _ le => Nat.add_le_add_left le _
  have places := ascending.map_isLeast least
  have shifted : (session.position + ·) '' insert found.length
      {count | .goBack count ∈ found.rule.actions} =
        insert (session.position + found.length) {place | ∃ count,
          .goBack count ∈ found.rule.actions ∧ place = session.position + count} := by
    rw [Set.image_insert_eq]
    congr 1
    ext place
    simp [eq_comm]
  rw [shifted] at places
  exact places

@[simp]
theorem token?_keep (stats : Stats) (effect : Effect) (span : List Char) (position : Nat)
    (state : String) (found : Option Match) :
    Cycle.token? ⟨position, state, found, span, (keep stats effect span).1⟩ =
      effect.unit.map fun tag => ⟨tag, effect.line, String.ofList span⟩ := by
  rw [keep]
  cases effect.unit with
  | none => rfl
  | some tag => rfl

@[simp]
theorem error?_keep (stats : Stats) (effect : Effect) (span : List Char) (position : Nat)
    (state : String) (found : Option Match) :
    Cycle.error? ⟨position, state, found, span, (keep stats effect span).1⟩ = none := by
  rw [keep]
  cases effect.unit with
  | none => rfl
  | some tag => rfl

theorem stats_keep (stats : Stats) (effect : Effect) (span : List Char) :
    (keep stats effect span).2.matched = stats.matched + effect.kept ∧
      (keep stats effect span).2.skipped = stats.skipped := by
  rw [keep]
  cases effect.unit with
  | none => exact ⟨rfl, rfl⟩
  | some tag => exact ⟨rfl, rfl⟩

theorem settled_keep (stats : Stats) (effect : Effect) (span : List Char) :
    (keep stats effect span).2.tokens + (keep stats effect span).2.suppressed =
      stats.tokens + stats.suppressed + 1 := by
  rw [keep]
  cases effect.unit with
  | none => rfl
  | some tag => exact Nat.add_right_comm _ _ _

theorem stays_iff (session : Session) (found : Match) :
    session.position + (session.effectOf found).kept = session.position ↔
      (session.effectOf found).kept = 0 :=
  Nat.add_eq_left

theorem Placed.settles_refused (placed : Placed input session) {char : Char} {tail : List Char}
    (reads : session.rest = char :: tail) (empty : (session.effectOf found).kept = 0)
    (repeats : (session.effectOf found).state ∈ session.closed) :
    Settles input.toList {state | state ∈ session.closed} found.rule
      (session.position + found.length) (session.position + (session.effectOf found).kept)
      session ((session.moved (session.effectOf found)).skip char tail).2 none := by
  have refused := And.intro ((stays_iff session found).mpr empty) repeats
  constructor
  · exact state_effectOf session found
  · exact line_effectOf session found
  · exact isLeast_retained session found
  · intro emitted
    constructor
    · intro none
      cases none
    · rintro ⟨kept, -⟩
      exact absurd refused kept
  · intro _
    exact ⟨char, placed.head reads, rfl, rfl, rfl⟩
  · intro kept
    exact absurd refused kept

theorem Placed.settles_kept (placed : Placed input session)
    (moves : (session.effectOf found).kept = 0 →
      (session.effectOf found).state ∉ session.closed) :
    Settles input.toList {state | state ∈ session.closed} found.rule
      (session.position + found.length) (session.position + (session.effectOf found).kept)
      session (session.advanced (session.effectOf found))
      ((session.effectOf found).unit.map fun tag => ⟨tag, (session.effectOf found).line,
        String.ofList (session.rest.take (session.effectOf found).kept)⟩) := by
  have settled : ¬ (session.position + (session.effectOf found).kept = session.position ∧
      (session.effectOf found).state ∈ session.closed) :=
    fun refused => moves ((stays_iff session found).mp refused.1) refused.2
  constructor
  · exact state_effectOf session found
  · exact line_effectOf session found
  · exact isLeast_retained session found
  · intro emitted
    rw [unit_effectOf, ← placed.take_eq_extract]
    by_cases silent : .suppress ∈ found.rule.actions
    · simp [silent]
    · rw [if_neg silent, Option.map_eq_some_iff]
      constructor
      · rintro ⟨tag, unit, rfl⟩
        exact ⟨settled, silent, tag, unit, rfl⟩
      · rintro ⟨-, -, tag, unit, rfl⟩
        exact ⟨tag, unit, rfl⟩
  · intro refused
    exact absurd refused settled
  · intro _
    have counted := stats_keep session.stats (session.effectOf found)
      (session.rest.take (session.effectOf found).kept)
    rw [Nat.add_sub_cancel_left]
    exact ⟨rfl, rfl, counted.1, counted.2⟩

theorem Placed.settles (placed : Placed input session)
    (scanned : scan bundle.graph (bundle.rules session.state) session.rest = some found) :
    ∃ cycle next, Took bundle session cycle next ∧ cycle.found = some found ∧
      Settles input.toList {state | state ∈ session.closed} found.rule
        (session.position + found.length) (session.position + (session.effectOf found).kept)
        session next cycle.token? := by
  by_cases refusal : (session.effectOf found).kept = 0 ∧
      (session.effectOf found).state ∈ session.closed
  · rcases List.exists_cons_of_ne_nil (rest_of_scan scanned) with ⟨char, tail, reads⟩
    exact ⟨_, _, .refused reads scanned refusal.1 refusal.2, rfl,
      placed.settles_refused reads refusal.1 refusal.2⟩
  · have moves : (session.effectOf found).kept = 0 →
        (session.effectOf found).state ∉ session.closed :=
      fun empty repeats => refusal ⟨empty, repeats⟩
    refine ⟨_, _, .kept (rest_of_scan scanned) scanned moves, rfl, ?_⟩
    rw [token?_keep]
    exact placed.settles_kept moves

end Outcome

section Order

variable {other : Bundle}

theorem effectOf_rearranged (session : Session) {rule : Rule} (same : found.rule.Rearranges rule) :
    session.effectOf { found with rule := rule } = session.effectOf found := by
  rw [effectOf, effectOf, ← same.unit]
  exact (Effect.applyAll_perm _ same.actions same.targets).symm

theorem took_rearranged (same : bundle.Corresponds (fun _ _ => Rule.Rearranges) other)
    (took : Took bundle session cycle next) :
    ∃ answer, Took other session answer next ∧ Cycle.Retells cycle answer := by
  have fragments : ∀ (_ : String) (_ : Nat) (rule answer : Rule), rule.Rearranges answer →
      rule.fragment = answer.fragment := fun _ _ _ _ relates => relates.fragment
  cases took with
  | unmatched reads scanned =>
      exact ⟨_, .unmatched reads (same.scan_none fragments scanned), none, rfl, rfl⟩
  | @refused char tail found reads scanned empty repeats =>
      rcases same.scan_some fragments scanned with ⟨rule, relates, also⟩
      have effect := effectOf_rearranged session relates
      have took := Took.refused reads also (effect ▸ empty) (effect ▸ repeats)
      rw [effect] at took
      exact ⟨_, took, some { found with rule := rule }, rfl, rfl⟩
  | @kept found unfinished scanned moves =>
      rcases same.scan_some fragments scanned with ⟨rule, relates, also⟩
      have effect := effectOf_rearranged session relates
      have took := Took.kept unfinished also (effect ▸ moves)
      rw [effect] at took
      exact ⟨_, took, some { found with rule := rule }, rfl, rfl⟩

theorem lockstep_rearranged (same : bundle.Corresponds (fun _ _ => Rule.Rearranges) other) :
    Lockstep bundle other Eq Cycle.Retells := by
  constructor
  · rintro session _ rfl ended
    exact ended
  · rintro session _ cycle next rfl took
    rcases took_rearranged same took with ⟨answer, also, retells⟩
    exact ⟨answer, next, also, retells, rfl⟩

theorem tokens_of_retells {cycles answers : List Cycle}
    (retold : List.Forall₂ Cycle.Retells cycles answers) :
    answers.filterMap Cycle.token? = cycles.filterMap Cycle.token? := by
  induction retold with
  | nil => rfl
  | @cons cycle answer _ _ retells later ih =>
      rcases retells with ⟨winner, rfl, -⟩
      have same : Cycle.token? { cycle with found := winner } = cycle.token? := rfl
      rw [List.filterMap_cons, List.filterMap_cons, same, ih]

theorem ofRun_drain_rearranged (same : bundle.Corresponds (fun _ _ => Rule.Rearranges) other)
    (session : Session) :
    TokenStream.ofRun (session.drain other) = TokenStream.ofRun (session.drain bundle) := by
  rcases (lockstep_rearranged same).drain (rfl : session = session) with ⟨retold, final⟩
  rw [TokenStream.ofRun, TokenStream.ofRun, tokens_of_retells retold, final]

theorem tokenize_rearranged (same : bundle.Corresponds (fun _ _ => Rule.Rearranges) other)
    (started : Session.start bundle input = .ok first) :
    tokenize other input = tokenize bundle input := by
  rw [tokenize_of_start started, tokenize_of_start (same.start started),
    ofRun_drain_rearranged same]

theorem runs_rearranged (same : bundle.Corresponds (fun _ _ => Rule.Rearranges) other)
    (run : Runs bundle session trace last) : ∃ answers, Runs other session answers last ∧
      List.Forall₂ Cycle.Retells (trace.map Prod.fst) (answers.map Prod.fst) := by
  rcases (lockstep_rearranged same).runs run rfl with ⟨answers, _, also, retold, rfl⟩
  exact ⟨answers, also, retold⟩

end Order

theorem settles_of_runs (started : Session.start bundle input = .ok first)
    (run : Runs bundle first trace session)
    (scanned : scan bundle.graph (bundle.rules session.state) session.rest = some found) :
    ∃ cycle next retained, session.step bundle = some (cycle, next) ∧ cycle.found = some found ∧
      Settles input.toList (insert session.state (passedThrough trace session.position)) found.rule
        (session.position + found.length) retained session next cycle.token? := by
  rcases (run.placed started).settles scanned with ⟨cycle, next, took, chosen, settles⟩
  have fresh : first.visited = [] := by rw [start_eq_ok started]; rfl
  have closed : {state | state ∈ session.closed} =
      insert session.state (passedThrough trace session.position) :=
    Set.ext (run.mem_closed_iff fresh)
  rw [closed] at settles
  exact ⟨cycle, next, _, step_of_took took, chosen, settles⟩

theorem found_of_amid {text : List Char} {machine : Machine} {index stop : Nat}
    (amid : machine.Amid bundle text session)
    (phase : machine.phase = .scanned (some (index, stop))) :
    ∃ found : Match, scan bundle.graph (bundle.rules session.state) session.rest = some found ∧
      machine.rules[index]? = some found.rule ∧ stop = session.position + found.length ∧
        machine.session text = session := by
  cases amid with
  | ready ready => cases ready.symm.trans phase
  | scanning scanning => cases scanning.symm.trans phase
  | acting performing => cases performing.phase.symm.trans phase
  | scanned scanned range equipped shows best stops =>
      cases scanned.symm.trans phase
      rcases Option.map_eq_some_iff.mp best.symm with ⟨found, won, place⟩
      cases place
      have listed := (scan_eq_some_iff.mp won).1
      rw [equipped.rules] at won
      subst shows
      exact ⟨found, won, listed, rfl, rfl⟩

/-- The machine settles a match while it runs the actions one by one. -/
theorem settles_of_steps (started : Session.start bundle input = .ok first) {machine : Machine}
    {index stop : Nat}
    (steps : Machine.Steps bundle input.toList (Machine.begin bundle) machine)
    (phase : machine.phase = .scanned (some (index, stop))) :
    ∃ rule retained token after, machine.rules[index]? = some rule ∧
      Machine.Steps bundle input.toList machine after ∧ after.phase = .ready ∧
        Settles input.toList (insert machine.state {state | state ∈ machine.visited}) rule stop
          retained (machine.session input.toList) (after.session input.toList) token ∧
            after.tokens.toList = machine.tokens.toList ++ token.toList := by
  have begins := Machine.amid_begin bundle input
  rw [← start_eq_ok started] at begins
  rcases steps.amid begins rfl with ⟨trace, session, run, amid, -⟩
  rcases found_of_amid amid phase with ⟨found, scanned, listed, rfl, rfl⟩
  rcases (run.placed started).settles scanned with ⟨cycle, next, took, -, settles⟩
  have closed : {state | state ∈ (machine.session input.toList).closed} =
      insert machine.state {state | state ∈ machine.visited} :=
    Set.ext (run.tracked started).mem_closed_iff
  rw [closed] at settles
  rcases Machine.exists_steps_of_step machine amid (step_of_took took) with
    ⟨after, onward, ready, behind, tokens⟩
  rw [← behind.session_eq ready] at settles
  exact ⟨found.rule, _, _, after, listed, onward, ready, settles, tokens⟩

theorem steps_rearranged {other : Bundle}
    (same : bundle.Corresponds (fun _ _ => Rule.Rearranges) other)
    (started : Session.start bundle input = .ok first) {machine : Machine}
    (steps : Machine.Steps bundle input.toList (Machine.begin bundle) machine)
    (ready : machine.phase = .ready) :
    ∃ answer, Machine.Steps other input.toList (Machine.begin other) answer ∧
      answer.phase = .ready ∧ answer.session input.toList = machine.session input.toList ∧
        answer.tokens = machine.tokens := by
  have begins := Machine.amid_begin bundle input
  rw [← start_eq_ok started] at begins
  rcases steps.amid begins rfl with ⟨trace, session, run, amid, tokens⟩
  rcases runs_rearranged same run with ⟨answers, also, retold⟩
  have others := Machine.amid_begin other input
  rw [← start_eq_ok (same.start started)] at others
  rcases Machine.exists_steps_of_runs also (Machine.begin other) rfl others with
    ⟨answer, onward, halted, behind, more⟩
  refine ⟨answer, onward, halted, ?_, ?_⟩
  · rw [behind.session_eq halted, amid.session_eq ready]
  · rw [tokens_of_retells retold, ← tokens] at more
    exact Array.toList_inj.mp more

/--
What becomes of every match that a session, or the machine, finds: the list of actions tells it as
a whole. So rearranged actions change no cycle and no token, as long as the switches keep their
order.
-/
theorem matches_settle (started : Session.start bundle input = .ok first) :
    (∀ trace session found, Runs bundle first trace session →
      scan bundle.graph (bundle.rules session.state) session.rest = some found →
        ∃ cycle next retained, session.step bundle = some (cycle, next) ∧
          cycle.found = some found ∧
            Settles input.toList (insert session.state (passedThrough trace session.position))
              found.rule (session.position + found.length) retained session next cycle.token?) ∧
    (∀ machine index stop, Machine.Steps bundle input.toList (Machine.begin bundle) machine →
      machine.phase = .scanned (some (index, stop)) →
        ∃ rule retained token after, machine.rules[index]? = some rule ∧
          Machine.Steps bundle input.toList machine after ∧ after.phase = .ready ∧
            Settles input.toList (insert machine.state {state | state ∈ machine.visited}) rule
              stop retained (machine.session input.toList) (after.session input.toList) token ∧
                after.tokens.toList = machine.tokens.toList ++ token.toList) ∧
    ∀ other, bundle.Corresponds (fun _ _ => Rule.Rearranges) other →
      (∀ trace session, Runs bundle first trace session →
        ∃ answers, Runs other first answers session ∧
          List.Forall₂ Cycle.Retells (trace.map Prod.fst) (answers.map Prod.fst)) ∧
      (∀ machine, Machine.Steps bundle input.toList (Machine.begin bundle) machine →
        machine.phase = .ready →
          ∃ answer, Machine.Steps other input.toList (Machine.begin other) answer ∧
            answer.phase = .ready ∧ answer.session input.toList = machine.session input.toList ∧
              answer.tokens = machine.tokens) ∧
      tokenize other input = tokenize bundle input := by
  refine ⟨?_, ?_, ?_⟩
  · intro trace session found run scanned
    exact settles_of_runs started run scanned
  · intro machine index stop steps phase
    exact settles_of_steps started steps phase
  · intro other same
    refine ⟨fun trace session run => runs_rearranged same run, ?_,
      tokenize_rearranged same started⟩
    intro machine steps ready
    exact steps_rearranged same started steps ready

def swinging : Bundle where
  startState := "S"
  states := StateTable.push (StateTable.push {} "S"
      ⟨some "A", ⟨0, 1⟩, [.switchState "T", .goBack 3, .incrementLine, .goBack 0]⟩) "T"
    ⟨some "B", ⟨0, 1⟩, [.goBack 0, .switchState "T", .incrementLine, .switchState "S"]⟩
  graph := { nodes := #[{ transitions := OrderedMap.empty.insert 'a' 1 }, {}] }

def swingingOtherwise : Bundle :=
  { swinging with
    states := StateTable.push (StateTable.push {} "S"
        ⟨some "A", ⟨0, 1⟩, [.goBack 0, .incrementLine, .switchState "T", .goBack 3]⟩) "T"
      ⟨some "B", ⟨0, 1⟩, [.switchState "T", .switchState "S", .goBack 0, .incrementLine]⟩ }

def handedOver : Session where
  rest := ['a']
  state := "T"
  line := 2
  visited := ["T", "S"]
  stats := { tokens := 1 }

theorem matches_settle_swinging :
    Session.start swinging "a" = .ok (startIn "S" "a") ∧
      (∃ trace cycle next retained, Runs swinging (startIn "S" "a") trace handedOver ∧
        handedOver.step swinging = some (cycle, next) ∧
          Settles ['a'] (insert "T" (passedThrough trace 0))
            ⟨some "B", ⟨0, 1⟩, [.goBack 0, .switchState "T", .incrementLine, .switchState "S"]⟩
            1 retained handedOver next cycle.token?) ∧
        tokenize swingingOtherwise "a" = tokenize swinging "a" := by
  have started : Session.start swinging "a" = .ok (startIn "S" "a") := by cbv
  have stepped : ∃ cycle, (startIn "S" "a").step swinging = some (cycle, handedOver) :=
    ⟨_, by cbv⟩
  have scanned : scan swinging.graph (swinging.rules handedOver.state) handedOver.rest =
      some ⟨0, ⟨some "B", ⟨0, 1⟩, [.goBack 0, .switchState "T", .incrementLine,
        .switchState "S"]⟩, 1⟩ := by cbv
  have same : swinging.Corresponds (fun _ _ => Rule.Rearranges) swingingOtherwise := by
    refine Bundle.corresponds_of_entries rfl rfl ?_
    exact .cons ⟨rfl, .cons ⟨rfl, rfl, by decide, rfl⟩ .nil⟩
      (.cons ⟨rfl, .cons ⟨rfl, rfl, by decide, rfl⟩ .nil⟩ .nil)
  rcases stepped with ⟨cycle, stepped⟩
  have run : Runs swinging (startIn "S" "a") [(cycle, handedOver)] handedOver :=
    .more stepped (.stay handedOver)
  rcases matches_settle started with ⟨settles, -, rearranged⟩
  rcases settles _ _ _ run scanned with ⟨answer, next, retained, taken, -, settled⟩
  exact ⟨started, ⟨_, answer, next, retained, run, taken, settled⟩, (rearranged _ same).2.2⟩

end Session

end MaximalMunch
