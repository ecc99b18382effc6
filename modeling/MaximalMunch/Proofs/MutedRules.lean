import MaximalMunch.Proofs.MatchOutcome

/-!
What rules emit has no influence on where the lexer goes. Only switches and giving back steer it:
lexers that differ in units, suppressions and line feeds go through the input in step. So a rule
can be muted without any other token or any error being touched.
-/

namespace MaximalMunch

/-- Whether an action can change the lexer state or the place where the lexer goes on. -/
def Action.steers : Action → Bool
  | .switchState _ => true
  | .goBack _ => true
  | .suppress => false
  | .incrementLine => false

/-- The same rule but for its unit, its suppressions and its line feeds. -/
structure Rule.SteersAs (rule other : Rule) : Prop where
  fragment : rule.fragment = other.fragment
  steering : rule.actions.filter Action.steers = other.actions.filter Action.steers

/-- The same rule, which now emits nothing. -/
structure Rule.MutedAs (rule muted : Rule) : Prop where
  fragment : rule.fragment = muted.fragment
  actions : rule.actions.filter (· ≠ .suppress) = muted.actions.filter (· ≠ .suppress)
  silent : muted.unit = none ∨ .suppress ∈ muted.actions

/-- Only the chosen rules are muted, by the state and their place among its rules. -/
def muting (chosen : String → Nat → Bool) (state : String) (index : Nat) (rule other : Rule) :
    Prop :=
  if chosen state index then rule.MutedAs other else rule = other

theorem mem_iff_of_filter_eq {actions others : List Action} {test : Action → Bool}
    (same : actions.filter test = others.filter test) {action : Action}
    (passes : test action = true) : action ∈ actions ↔ action ∈ others := by
  have member : action ∈ actions.filter test ↔ action ∈ others.filter test := by rw [same]
  simpa [passes] using member

namespace Effect

variable {effect other : Effect} {actions others : List Action}

theorem targets_of_filter_eq (same : actions.filter Action.steers = others.filter Action.steers) :
    actions.filterMap Action.target? = others.filterMap Action.target? := by
  have steered : ∀ list : List Action,
      (list.filter Action.steers).filterMap Action.target? = list.filterMap Action.target? := by
    intro list
    rw [List.filterMap_filter]
    apply List.filterMap_congr
    intro action _
    cases action with
    | switchState target => rfl
    | goBack count => rfl
    | suppress => rfl
    | incrementLine => rfl
  rw [← steered actions, same, steered others]

theorem state_applyAll_of_filter_eq
    (same : actions.filter Action.steers = others.filter Action.steers)
    (state : effect.state = other.state) :
    (effect.applyAll actions).state = (other.applyAll others).state := by
  rw [state_applyAll, state_applyAll, targets_of_filter_eq same, state]

theorem kept_applyAll_of_filter_eq
    (same : actions.filter Action.steers = others.filter Action.steers)
    (kept : effect.kept = other.kept) :
    (effect.applyAll actions).kept = (other.applyAll others).kept := by
  have alike : {count | Action.goBack count ∈ actions} = {count | .goBack count ∈ others} :=
    Set.ext fun count => mem_iff_of_filter_eq same rfl
  have least := effect.isLeast_kept_applyAll actions
  rw [alike, kept] at least
  exact least.unique (other.isLeast_kept_applyAll others)

end Effect

theorem Rule.MutedAs.steersAs {rule muted : Rule} (mutes : rule.MutedAs muted) :
    rule.SteersAs muted := by
  have steered : ∀ list : List Action,
      (list.filter (· ≠ .suppress)).filter Action.steers = list.filter Action.steers := by
    intro list
    rw [List.filter_filter]
    apply List.filter_congr
    intro action _
    cases action with
    | switchState target => rfl
    | goBack count => rfl
    | suppress => rfl
    | incrementLine => rfl
  refine ⟨mutes.fragment, ?_⟩
  rw [← steered rule.actions, mutes.actions, steered]

theorem Rule.SteersAs.refl (rule : Rule) : rule.SteersAs rule := ⟨rfl, rfl⟩

theorem steersAs_of_muting {chosen : String → Nat → Bool} {state : String} {index : Nat}
    {rule other : Rule} (mutes : muting chosen state index rule other) : rule.SteersAs other := by
  unfold muting at mutes
  split at mutes
  · exact mutes.steersAs
  · exact mutes ▸ .refl rule

def LexicalError.mark (error : LexicalError) : Nat × Char := (error.position, error.char)

/-- Cycles that go the same way, whatever they emit and whatever their lines are. -/
structure Cycle.Abreast (cycle answer : Cycle) : Prop where
  position : answer.position = cycle.position
  state : answer.state = cycle.state
  winner : answer.found.map (Match.place answer.position) =
    cycle.found.map (Match.place cycle.position)
  span : answer.span = cycle.span
  error : answer.error?.map LexicalError.mark = cycle.error?.map LexicalError.mark

/-- Whether one of the chosen rules won in the cycle. -/
def Cycle.isOf (chosen : String → Nat → Bool) (cycle : Cycle) : Bool :=
  cycle.found.any fun found => chosen cycle.state found.index

/-- The answer emits the same token, or none where a chosen rule won. -/
def Cycle.Mutes (chosen : String → Nat → Bool) (cycle answer : Cycle) : Prop :=
  answer.token? = if cycle.isOf chosen then none else cycle.token?

namespace Session

variable {first second : Bundle} {input : String} {session other next start : Session}
  {cycle : Cycle} {found : Match} {rule : Rule} {chosen : String → Nat → Bool}

theorem state_effectOf_of_steersAs (steers : found.rule.SteersAs rule)
    (state : other.state = session.state) :
    (other.effectOf { found with rule := rule }).state = (session.effectOf found).state := by
  refine (Effect.state_applyAll_of_filter_eq steers.steering ?_).symm
  exact state.symm

theorem kept_effectOf_of_steersAs (session other : Session) (steers : found.rule.SteersAs rule) :
    (other.effectOf { found with rule := rule }).kept = (session.effectOf found).kept := by
  refine (Effect.kept_applyAll_of_filter_eq steers.steering ?_).symm
  rfl

/-- Sessions at the same place, which have met the same errors and kept as many matches. -/
structure Abreast (session other : Session) : Prop where
  rest : other.rest = session.rest
  position : other.position = session.position
  state : other.state = session.state
  visited : other.visited = session.visited
  errors : other.errors.toList.map LexicalError.mark = session.errors.toList.map LexicalError.mark
  matched : other.stats.matched = session.stats.matched
  skipped : other.stats.skipped = session.stats.skipped
  settled : other.stats.tokens + other.stats.suppressed =
    session.stats.tokens + session.stats.suppressed

namespace Abreast

theorem refl (session : Session) : Abreast session session := ⟨rfl, rfl, rfl, rfl, rfl, rfl, rfl, rfl⟩

theorem closed (abreast : Abreast session other) : other.closed = session.closed := by
  rw [Session.closed, Session.closed, abreast.visited, abreast.state]

theorem skip (abreast : Abreast session other) (char : Char) (tail : List Char) :
    Abreast (session.skip char tail).2 (other.skip char tail).2 := by
  constructor
  · rfl
  · exact congrArg (· + 1) abreast.position
  · exact abreast.state
  · rfl
  · simp [Session.skip, LexicalError.mark, abreast.errors, abreast.position]
  · exact abreast.matched
  · exact congrArg (· + 1) abreast.skipped
  · exact abreast.settled

theorem moved (abreast : Abreast session other) {effect answer : Effect}
    (state : answer.state = effect.state) : Abreast (session.moved effect) (other.moved answer) :=
  ⟨abreast.rest, abreast.position, state, abreast.visited, abreast.errors, abreast.matched,
    abreast.skipped, abreast.settled⟩

theorem advanced (abreast : Abreast session other) {effect answer : Effect}
    (state : answer.state = effect.state) (kept : answer.kept = effect.kept) :
    Abreast (session.advanced effect) (other.advanced answer) := by
  have counted := stats_keep session.stats effect (session.rest.take effect.kept)
  have recounted := stats_keep other.stats answer (other.rest.take answer.kept)
  constructor
  · show other.rest.drop answer.kept = session.rest.drop effect.kept
    rw [abreast.rest, kept]
  · show other.position + answer.kept = session.position + effect.kept
    rw [abreast.position, kept]
  · exact state
  · simp only [Session.advanced, state, kept, abreast.closed]
  · exact abreast.errors
  · show (keep _ _ _).2.matched = (keep _ _ _).2.matched
    rw [counted.1, recounted.1, abreast.matched, kept]
  · show (keep _ _ _).2.skipped = (keep _ _ _).2.skipped
    rw [counted.2, recounted.2, abreast.skipped]
  · show (keep _ _ _).2.tokens + (keep _ _ _).2.suppressed =
      (keep _ _ _).2.tokens + (keep _ _ _).2.suppressed
    rw [settled_keep, settled_keep, abreast.settled]

end Abreast

theorem took_abreast (same : first.Corresponds (fun _ _ => Rule.SteersAs) second)
    (abreast : Abreast session other) (took : Took first session cycle next) :
    ∃ answer after, Took second other answer after ∧ cycle.Abreast answer ∧
      Abreast next after := by
  have fragments : ∀ (_ : String) (_ : Nat) (rule answer : Rule), rule.SteersAs answer →
      rule.fragment = answer.fragment := fun _ _ _ _ steers => steers.fragment
  cases took with
  | @unmatched char tail reads scanned =>
      have also := same.scan_none fragments scanned
      rw [← abreast.rest, ← abreast.state] at also
      refine ⟨_, _, .unmatched (abreast.rest.trans reads) also, ?_, abreast.skip char tail⟩
      refine ⟨abreast.position, abreast.state, rfl, rfl, ?_⟩
      simp [Cycle.error?, Session.skip, LexicalError.mark, abreast.position]
  | @refused char tail found reads scanned empty repeats =>
      rcases same.scan_some fragments scanned with ⟨rule, steers, also⟩
      have state := state_effectOf_of_steersAs steers abreast.state
      have kept := kept_effectOf_of_steersAs session other steers
      rw [← kept] at empty
      rw [← state, ← abreast.closed] at repeats
      rw [← abreast.rest, ← abreast.state] at also
      refine ⟨_, _, .refused (abreast.rest.trans reads) also empty repeats, ?_,
        (abreast.moved state).skip char tail⟩
      refine ⟨abreast.position, abreast.state, ?_, rfl, ?_⟩
      · simp [Match.place, abreast.position]
      · simp [Cycle.error?, Session.skip, LexicalError.mark, abreast.position]
  | @kept found unfinished scanned moves =>
      rcases same.scan_some fragments scanned with ⟨rule, steers, also⟩
      have state := state_effectOf_of_steersAs steers abreast.state
      have kept := kept_effectOf_of_steersAs session other steers
      rw [← kept, ← state, ← abreast.closed] at moves
      rw [← abreast.rest, ← abreast.state] at also
      rw [← abreast.rest] at unfinished
      refine ⟨_, _, .kept unfinished also moves, ?_, abreast.advanced state kept⟩
      refine ⟨abreast.position, abreast.state, ?_, ?_, ?_⟩
      · simp [Match.place, abreast.position]
      · show other.rest.take _ = session.rest.take _
        rw [abreast.rest, kept]
      · rw [error?_keep, error?_keep]

theorem lockstep_abreast (same : first.Corresponds (fun _ _ => Rule.SteersAs) second) :
    Lockstep first second Abreast Cycle.Abreast := by
  constructor
  · intro session other abreast ended
    rw [abreast.rest, ended]
  · intro session other cycle next abreast took
    exact took_abreast same abreast took

theorem effectOf_muted (session : Session) (stats : Stats) (mutes : found.rule.MutedAs rule) :
    Session.effectOf { session with stats := stats } { found with rule := rule } =
      { session.effectOf found with unit := none } := by
  have steers := mutes.steersAs
  ext : 1
  · exact state_effectOf_of_steersAs steers rfl
  · have counted : rule.actions.count .incrementLine = found.rule.actions.count .incrementLine := by
      rw [← List.count_filter (p := (· ≠ Action.suppress)) (by decide), ← mutes.actions,
        List.count_filter (by decide)]
    show (Session.effectOf _ _).line = (session.effectOf found).line
    rw [line_effectOf, line_effectOf, counted]
  · exact kept_effectOf_of_steersAs session _ steers
  · show (Session.effectOf _ _).unit = none
    rw [unit_effectOf]
    rcases mutes.silent with none | suppressed
    · rw [none, ite_self]
    · rw [if_pos suppressed]

theorem effectOf_muting (session : Session) (stats : Stats)
    (mutes : muting chosen session.state found.index found.rule rule) :
    Session.effectOf { session with stats := stats } { found with rule := rule } =
      { session.effectOf found with
        unit := if chosen session.state found.index then none
          else (session.effectOf found).unit } := by
  unfold muting at mutes
  split at mutes
  case isTrue muted =>
    rw [effectOf_muted session stats mutes, if_pos muted]
  case isFalse heard =>
    rw [if_neg heard, ← mutes]
    rfl

def Recounts (session other : Session) : Prop := ∃ stats, other = { session with stats := stats }

theorem took_muted (same : first.Corresponds (muting chosen) second)
    (recounts : Recounts session other) (took : Took first session cycle next) :
    ∃ answer after, Took second other answer after ∧ cycle.Mutes chosen answer ∧
      Recounts next after := by
  rcases recounts with ⟨stats, rfl⟩
  have fragments : ∀ (state : String) (index : Nat) (rule answer : Rule),
      muting chosen state index rule answer → rule.fragment = answer.fragment :=
    fun _ _ _ _ mutes => (steersAs_of_muting mutes).fragment
  cases took with
  | unmatched reads scanned =>
      exact ⟨_, _, .unmatched reads (same.scan_none fragments scanned), (ite_self _).symm, _, rfl⟩
  | @refused char tail found reads scanned empty repeats =>
      rcases same.scan_some fragments scanned with ⟨rule, mutes, also⟩
      have effect := effectOf_muting session stats mutes
      have unread : ({ session with stats := stats } : Session).rest = char :: tail := reads
      have took := Took.refused unread also (effect ▸ empty) (effect ▸ repeats)
      rw [effect] at took
      exact ⟨_, _, took, (ite_self _).symm, _, rfl⟩
  | @kept found unfinished scanned moves =>
      rcases same.scan_some fragments scanned with ⟨rule, mutes, also⟩
      have effect := effectOf_muting session stats mutes
      have unread : ({ session with stats := stats } : Session).rest ≠ [] := unfinished
      have took := Took.kept unread also (effect ▸ moves)
      rw [effect] at took
      refine ⟨_, _, took, ?_, _, rfl⟩
      rw [Cycle.Mutes, token?_keep, token?_keep]
      show Option.map _ (if chosen session.state found.index then none else _) =
        if chosen session.state found.index then none else _
      split
      · rfl
      · rfl

theorem lockstep_muted (same : first.Corresponds (muting chosen) second) :
    Lockstep first second Recounts (Cycle.Mutes chosen) := by
  constructor
  · rintro session _ ⟨stats, rfl⟩ ended
    exact ended
  · intro session other cycle next recounts took
    exact took_muted same recounts took

theorem tokens_of_mutes {cycles answers : List Cycle}
    (muted : List.Forall₂ (Cycle.Mutes chosen) cycles answers) :
    answers.filterMap Cycle.token? =
      (cycles.filter fun cycle => !cycle.isOf chosen).filterMap Cycle.token? := by
  induction muted with
  | nil => rfl
  | @cons cycle answer _ _ mutes later ih =>
      rw [List.filterMap_cons, ih, mutes, List.filter_cons]
      cases cycle.isOf chosen with
      | true => rfl
      | false => rfl

/--
Lexers that differ in units, suppressions and line feeds go through each input in step. Where
chosen rules are muted their tokens are missing, and nothing else is changed.
-/
theorem emission_apart (started : Session.start first input = .ok start) :
    (∀ second, first.Corresponds (fun _ _ => Rule.SteersAs) second →
      Session.start second input = .ok start ∧
        List.Forall₂ Cycle.Abreast (start.drain first).1 (start.drain second).1 ∧
          Abreast (start.drain first).2 (start.drain second).2) ∧
    ∀ chosen second, first.Corresponds (muting chosen) second →
      ∃ stream muted, tokenize first input = .ok stream ∧ tokenize second input = .ok muted ∧
        muted.tokens = ((start.drain first).1.filter fun cycle =>
          !cycle.isOf chosen).filterMap Cycle.token? ∧
        muted.errors = stream.errors ∧ muted.stats.matched = stream.stats.matched ∧
          muted.stats.skipped = stream.stats.skipped ∧
            muted.stats.tokens + muted.stats.suppressed =
              stream.stats.tokens + stream.stats.suppressed := by
  constructor
  · intro second same
    have drained := (lockstep_abreast same).drain (.refl start)
    exact ⟨same.start started, drained.1, drained.2⟩
  · intro chosen second same
    have steers := same.mono fun _ _ _ _ => steersAs_of_muting
    rcases (lockstep_muted same).drain ⟨start.stats, rfl⟩ with ⟨muted, stats, final⟩
    have abreast := ((lockstep_abreast steers).drain (.refl start)).2
    have errors : (start.drain second).2.errors = (start.drain first).2.errors := by rw [final]
    refine ⟨TokenStream.ofRun (start.drain first), TokenStream.ofRun (start.drain second),
      tokenize_of_start started, tokenize_of_start (same.start started), tokens_of_mutes muted,
      congrArg Array.toList errors, abreast.matched, abreast.skipped, abreast.settled⟩

def spoken : Bundle where
  startState := "S"
  states := StateTable.push (StateTable.push (StateTable.push {} "S"
      ⟨some "WORD", ⟨0, 1⟩, [.incrementLine, .goBack 2]⟩) "S"
      ⟨some "GAP", ⟨1, 2⟩, [.switchState "T", .goBack 0]⟩) "T"
    ⟨some "MARK", ⟨1, 2⟩, [.switchState "S"]⟩
  graph := { nodes := #[{ transitions := OrderedMap.empty.insert 'a' 1 },
    { transitions := OrderedMap.empty.insert 'b' 2 }, {}] }

def whispered : Bundle :=
  { spoken with
    states := StateTable.push (StateTable.push (StateTable.push {} "S"
        ⟨none, ⟨0, 1⟩, [.incrementLine, .goBack 2]⟩) "S"
        ⟨some "GAP", ⟨1, 2⟩, [.switchState "T", .goBack 0]⟩) "T"
      ⟨some "MARK", ⟨1, 2⟩, [.suppress, .switchState "S"]⟩ }

def wordsAndMarks (state : String) (index : Nat) : Bool :=
  state = "T" || index = 0

theorem emission_apart_whispered :
    List.Forall₂ Cycle.Abreast ((startIn "S" "abb?a").drain spoken).1
      ((startIn "S" "abb?a").drain whispered).1 ∧
    ∃ stream muted, tokenize spoken "abb?a" = .ok stream ∧
      tokenize whispered "abb?a" = .ok muted ∧ muted.errors = stream.errors ∧
        muted.tokens = (((startIn "S" "abb?a").drain spoken).1.filter fun cycle =>
          !cycle.isOf wordsAndMarks).filterMap Cycle.token? := by
  have started : Session.start spoken "abb?a" = .ok (startIn "S" "abb?a") := by cbv
  have same : spoken.Corresponds (muting wordsAndMarks) whispered := by
    refine Bundle.corresponds_of_entries rfl rfl ?_
    exact .cons ⟨rfl, .cons ⟨rfl, rfl, .inl rfl⟩ (.cons rfl .nil)⟩
      (.cons ⟨rfl, .cons ⟨rfl, rfl, .inr List.mem_cons_self⟩ .nil⟩ .nil)
  rcases emission_apart started with ⟨apart, mutes⟩
  rcases mutes _ _ same with ⟨stream, muted, heard, unheard, tokens, errors, -⟩
  refine ⟨(apart _ (same.mono fun _ _ _ _ => steersAs_of_muting)).2.1, ?_⟩
  exact ⟨stream, muted, heard, unheard, errors, tokens⟩

end Session

end MaximalMunch
