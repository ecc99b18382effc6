import MaximalMunch.Proofs.MatchOutcome
import MaximalMunch.Proofs.Refinement

/-!
A session can be cut behind any token that has characters. What is left of it is a session over the
rest of the input that begins in the current state, with its lines and places raised: the state and
the line are all that the past hands on.
-/

namespace MaximalMunch

def Bundle.startingIn (bundle : Bundle) (state : String) : Bundle :=
  { bundle with startState := state }

section Raised

variable (lines positions : Nat)

def LexicalError.raised (error : LexicalError) : LexicalError :=
  ⟨error.position + positions, error.line + lines, error.char⟩

def Token.raised (token : Token) : Token := ⟨token.tag, token.line + lines, token.lexeme⟩

def Outcome.raised : Outcome → Outcome
  | .emitted token => .emitted (token.raised lines)
  | .suppressed => .suppressed
  | .skipped error => .skipped (error.raised lines positions)

def Cycle.raised (cycle : Cycle) : Cycle :=
  { cycle with
    position := cycle.position + positions
    outcome := cycle.outcome.raised lines positions }

def TokenStream.raised (stream : TokenStream) : TokenStream where
  tokens := stream.tokens.map (Token.raised lines)
  errors := stream.errors.map (LexicalError.raised lines positions)
  stats := stream.stats

def Effect.raised (effect : Effect) : Effect := { effect with line := effect.line + lines }

@[simp]
theorem Effect.apply_raised (effect : Effect) (action : Action) :
    (effect.raised lines).apply action = (effect.apply action).raised lines := by
  cases action with
  | switchState target => rfl
  | goBack count => rfl
  | suppress => rfl
  | incrementLine => exact congrArg (Effect.mk _ · _ _) (Nat.add_right_comm _ _ _)

@[simp]
theorem Effect.applyAll_raised (effect : Effect) (actions : List Action) :
    (effect.raised lines).applyAll actions = (effect.applyAll actions).raised lines := by
  induction actions generalizing effect with
  | nil => rfl
  | cons action later ih =>
      calc (effect.raised lines).applyAll (action :: later)
        _ = ((effect.raised lines).apply action).applyAll later := rfl
        _ = ((effect.apply action).raised lines).applyAll later := by rw [apply_raised]
        _ = (effect.applyAll (action :: later)).raised lines := ih _

@[simp]
theorem Cycle.token?_raised (cycle : Cycle) :
    (cycle.raised lines positions).token? = cycle.token?.map (Token.raised lines) := by
  rcases cycle with ⟨position, state, found, span, outcome⟩
  cases outcome with
  | emitted token => rfl
  | suppressed => rfl
  | skipped error => rfl

theorem filterMap_token?_raised (cycles : List Cycle) :
    (cycles.map (Cycle.raised lines positions)).filterMap Cycle.token? =
      (cycles.filterMap Cycle.token?).map (Token.raised lines) := by
  rw [List.filterMap_map, List.map_filterMap]
  exact List.filterMap_congr fun cycle _ => Cycle.token?_raised lines positions cycle

end Raised

def Stats.plus (earlier later : Stats) : Stats where
  tokens := earlier.tokens + later.tokens
  suppressed := earlier.suppressed + later.suppressed
  matched := earlier.matched + later.matched
  skipped := earlier.skipped + later.skipped

namespace Session

variable {bundle : Bundle} {input state : String} {earlier session first next last : Session}
  {cycle : Cycle} {trace : List (Cycle × Session)} {found : Match}

/-- A session of its own, now behind what an earlier one has gone through. -/
def followedBy (earlier session : Session) : Session where
  rest := session.rest
  position := session.position + earlier.position
  state := session.state
  line := session.line + (earlier.line - 1)
  visited := session.visited
  errors := earlier.errors ++
    session.errors.map (LexicalError.raised (earlier.line - 1) earlier.position)
  stats := earlier.stats.plus session.stats

def shown (earlier : Session) (cycle : Cycle) : Cycle :=
  cycle.raised (earlier.line - 1) earlier.position

theorem effectOf_followedBy (earlier session : Session) (found : Match) :
    (earlier.followedBy session).effectOf found =
      (session.effectOf found).raised (earlier.line - 1) :=
  Effect.applyAll_raised _ ⟨session.state, session.line, found.length, found.rule.unit⟩ _

theorem skip_followedBy (earlier session : Session) (char : Char) (tail : List Char) :
    (earlier.followedBy session).skip char tail =
      ((session.skip char tail).1.raised (earlier.line - 1) earlier.position,
        earlier.followedBy (session.skip char tail).2) := by
  simp [followedBy, skip, LexicalError.raised, Stats.plus, Nat.add_right_comm, Nat.add_assoc]

theorem moved_followedBy (earlier session : Session) (effect : Effect) :
    (earlier.followedBy session).moved (effect.raised (earlier.line - 1)) =
      earlier.followedBy (session.moved effect) :=
  rfl

theorem keep_followedBy (earlier session : Session) (effect : Effect) (span : List Char) :
    keep (earlier.followedBy session).stats (effect.raised (earlier.line - 1)) span =
      ((keep session.stats effect span).1.raised (earlier.line - 1) earlier.position,
        earlier.stats.plus (keep session.stats effect span).2) := by
  cases unit : effect.unit with
  | none => simp [keep, Effect.raised, followedBy, Stats.plus, Outcome.raised, unit, Nat.add_assoc]
  | some tag =>
      simp [keep, Effect.raised, followedBy, Stats.plus, Outcome.raised, Token.raised, unit,
        Nat.add_assoc]

theorem advanced_followedBy (earlier session : Session) (effect : Effect) :
    (earlier.followedBy session).advanced (effect.raised (earlier.line - 1)) =
      earlier.followedBy (session.advanced effect) := by
  have kept := keep_followedBy earlier session effect (session.rest.take effect.kept)
  have stats := congrArg Prod.snd kept
  rw [advanced]
  simp only [followedBy, advanced, Effect.raised, closed] at stats ⊢
  simp [stats, Nat.add_right_comm]

/-- What a session of its own does, it does behind an earlier one. -/
theorem took_followedBy (earlier : Session)
    (took : Took (bundle.startingIn state) session cycle next) :
    Took bundle (earlier.followedBy session) (earlier.shown cycle) (earlier.followedBy next) := by
  have effect := effectOf_followedBy earlier session
  cases took with
  | @unmatched char tail reads scanned =>
      have here : (earlier.followedBy session).rest = char :: tail := reads
      have nothing : scan bundle.graph (bundle.rules (earlier.followedBy session).state)
          (earlier.followedBy session).rest = none := scanned
      have took := Took.unmatched here nothing
      rw [skip_followedBy] at took
      exact took
  | @refused char tail found reads scanned empty repeats =>
      have here : (earlier.followedBy session).rest = char :: tail := reads
      have matched : scan bundle.graph (bundle.rules (earlier.followedBy session).state)
          (earlier.followedBy session).rest = some found := scanned
      have took := Took.refused here matched (effect found ▸ empty) (effect found ▸ repeats)
      rw [effect, moved_followedBy, skip_followedBy] at took
      exact took
  | @kept found unfinished scanned moves =>
      have here : (earlier.followedBy session).rest ≠ [] := unfinished
      have matched : scan bundle.graph (bundle.rules (earlier.followedBy session).state)
          (earlier.followedBy session).rest = some found := scanned
      have took := Took.kept here matched (effect found ▸ moves)
      rw [effect, advanced_followedBy, keep_followedBy] at took
      exact took

theorem step_followedBy (earlier : Session)
    (stepped : session.step (bundle.startingIn state) = some (cycle, next)) :
    (earlier.followedBy session).step bundle =
      some (earlier.shown cycle, earlier.followedBy next) :=
  step_of_took (took_followedBy earlier (took_of_step stepped))

theorem runs_followedBy (earlier : Session) (run : Runs (bundle.startingIn state) first trace last) :
    Runs bundle (earlier.followedBy first)
      (trace.map fun entry => (earlier.shown entry.1, earlier.followedBy entry.2))
      (earlier.followedBy last) := by
  induction run with
  | stay session => exact .stay _
  | more stepped later ih => exact .more (step_followedBy earlier stepped) ih

theorem pulls_followedBy (earlier : Session) {token : Option Token}
    (pulls : Pulls (bundle.startingIn state) session token last) :
    Pulls bundle (earlier.followedBy session) (token.map (Token.raised (earlier.line - 1)))
      (earlier.followedBy last) := by
  induction pulls with
  | @ended session ended =>
      have used := step_eq_none_iff.mp ended
      exact .ended (step_eq_none_iff.mpr used)
  | emitted stepped emits =>
      apply Pulls.emitted (step_followedBy earlier stepped)
      rw [shown, Cycle.token?_raised, emits]
      rfl
  | silent stepped silent later ih =>
      refine .silent (step_followedBy earlier stepped) ?_ ih
      rw [shown, Cycle.token?_raised, silent]
      rfl

theorem ask_followedBy (bundle : Bundle) (state : String) (earlier : Session) (calls : Nat)
    (session : Session) :
    (earlier.followedBy session).ask bundle calls =
      (((session.ask (bundle.startingIn state) calls).1.map (Token.raised (earlier.line - 1))),
        earlier.followedBy (session.ask (bundle.startingIn state) calls).2) := by
  induction calls generalizing session with
  | zero => rfl
  | succ calls ih =>
      have pulls := pulls_followedBy earlier (pulls_next (bundle.startingIn state) session)
      rw [ask, pulls.next_eq, ih, ask, List.map_append]
      cases (session.next (bundle.startingIn state)).1 with
      | none => rfl
      | some token => rfl

theorem ofRun_drain_followedBy (bundle : Bundle) (state : String) (earlier session : Session) :
    TokenStream.ofRun ((earlier.followedBy session).drain bundle) =
      earlier.record.append ((TokenStream.ofRun (session.drain (bundle.startingIn state))).raised
        (earlier.line - 1) earlier.position) := by
  rcases runs_drain (bundle.startingIn state) session with ⟨trace, run, -⟩
  have ended := rest_drain (bundle.startingIn state) session
  have cycles : (trace.map fun entry =>
      (earlier.shown entry.1, earlier.followedBy entry.2)).map Prod.fst =
        (trace.map Prod.fst).map (Cycle.raised (earlier.line - 1) earlier.position) := by
    simp [shown]
  rw [drain_of_runs (runs_followedBy earlier run) ended, drain_of_runs run ended, cycles,
    TokenStream.ofRun, filterMap_token?_raised]
  simp [TokenStream.ofRun, TokenStream.raised, TokenStream.append, record, followedBy, Stats.plus]

theorem Pulls.took_last {token : Token} (pulls : Pulls bundle session (some token) last) :
    ∃ before cycle, Took bundle before cycle last ∧ cycle.token? = some token := by
  generalize emitted : some token = outcome at pulls
  induction pulls with
  | ended => cases emitted
  | emitted stepped emits =>
      cases emitted
      exact ⟨_, _, took_of_step stepped, emits⟩
  | silent stepped silent later ih => exact ih emitted

theorem visited_of_token {token : Token} (took : Took bundle session cycle next)
    (emits : cycle.token? = some token) (nonempty : token.lexeme ≠ "") : next.visited = [] := by
  cases took with
  | unmatched reads scanned => rfl
  | refused reads scanned empty repeats => rfl
  | @kept found unfinished scanned moves =>
      rw [token?_keep] at emits
      rcases Option.map_eq_some_iff.mp emits with ⟨tag, -, rfl⟩
      have moved : (session.effectOf found).kept ≠ 0 := by
        intro empty
        apply nonempty
        rw [empty, List.take_zero, String.ofList_nil]
      simp [moved]

theorem line_pos_of_took (took : Took bundle session cycle next) (positive : 0 < session.line) :
    0 < next.line := by
  cases took with
  | unmatched reads scanned => exact positive
  | @refused char tail found reads scanned empty repeats =>
      show 0 < (session.effectOf found).line
      rw [line_effectOf]
      exact Nat.add_pos_left positive _
  | @kept found unfinished scanned moves =>
      show 0 < (session.effectOf found).line
      rw [line_effectOf]
      exact Nat.add_pos_left positive _

theorem Runs.line_pos (run : Runs bundle first trace last)
    (started : Session.start bundle input = .ok first) : 0 < last.line := by
  apply run.invariant (fun session => 0 < session.line)
  · exact fun _ _ _ positive took => line_pos_of_took took positive
  · rw [start_eq_ok started]
    exact Nat.one_pos

def suffix (input : String) (session : Session) : String :=
  String.ofList (input.toList.drop session.position)

theorem followedBy_startIn (placed : Placed input session) (fresh : session.visited = [])
    (positive : 0 < session.line) :
    session.followedBy (startIn session.state (session.suffix input)) = session := by
  rcases session with ⟨rest, position, state, line, visited, errors, stats⟩
  have reads : rest = input.toList.drop position := placed.rest
  have counts : 1 + (line - 1) = line := Nat.add_sub_cancel' positive
  simp only at fresh
  simp [followedBy, startIn, suffix, Stats.plus, reads, fresh, counts]

theorem drain_trans (run : Runs bundle first trace session) :
    first.drain bundle =
      (trace.map Prod.fst ++ (session.drain bundle).1, (session.drain bundle).2) := by
  rcases runs_drain bundle session with ⟨later, onward, cycles⟩
  rw [drain_of_runs (run.trans onward) (rest_drain bundle session), List.map_append, cycles]

theorem ofRun_drain_trans (run : Runs bundle first trace session) {stream : TokenStream}
    (drained : TokenStream.ofRun (session.drain bundle) = session.record.append stream) :
    TokenStream.ofRun (first.drain bundle) = TokenStream.append
      ⟨(trace.map Prod.fst).filterMap Cycle.token?, session.errors.toList, session.stats⟩ stream := by
  have tokens := congrArg TokenStream.tokens drained
  have errors := congrArg TokenStream.errors drained
  have stats := congrArg TokenStream.stats drained
  simp only [TokenStream.ofRun, TokenStream.append, record, List.nil_append] at tokens errors stats
  rw [drain_trans run, TokenStream.ofRun, List.filterMap_append, tokens, errors, stats]
  rfl

theorem machine_followedBy {machine : Machine} (earlier : Session)
    (ready : machine.phase = .ready) (amid : machine.Amid bundle input.toList earlier)
    {text : String} (resumes : earlier.followedBy (startIn state text) = earlier)
    {fresh : Machine}
    (steps : Machine.Steps (bundle.startingIn state) text.toList
      (Machine.begin (bundle.startingIn state)) fresh) (halted : fresh.phase = .ready) :
    ∃ later, Machine.Steps bundle input.toList machine later ∧ later.phase = .ready ∧
      later.session input.toList = earlier.followedBy (fresh.session text.toList) ∧
        later.tokens.toList =
          machine.tokens.toList ++ fresh.tokens.toList.map (Token.raised (earlier.line - 1)) := by
  rcases steps.amid (Machine.amid_begin (bundle.startingIn state) text) rfl with
    ⟨trace, session, run, shows, tokens⟩
  have onward := runs_followedBy earlier run
  have begins : earlier.followedBy (startIn (bundle.startingIn state).startState text) = earlier :=
    resumes
  rw [begins] at onward
  rcases Machine.exists_steps_of_runs onward machine ready amid with
    ⟨later, goes, stops, behind, more⟩
  have cycles : (trace.map fun entry =>
      (earlier.shown entry.1, earlier.followedBy entry.2)).map Prod.fst =
        (trace.map Prod.fst).map (Cycle.raised (earlier.line - 1) earlier.position) := by
    simp [shown]
  refine ⟨later, goes, stops, ?_, ?_⟩
  · rw [behind.session_eq stops, shows.session_eq halted]
  · rw [more, cycles, filterMap_token?_raised, tokens]

end Session

theorem Bundle.startingIn_consistent {bundle : Bundle} (consistent : bundle.Consistent)
    {state : String} (known : bundle.states.contains state = true) :
    (bundle.startingIn state).Consistent :=
  ⟨known, consistent.entry, consistent.accept, consistent.target⟩

namespace Session

variable {bundle : Bundle} {input : String} {first session : Session}

/-- Behind a token that has characters the session begins again in all but its records. -/
theorem fresh_of_pulled {calls : Nat} {token : Token}
    (started : Session.start bundle input = .ok first)
    (pulled : (first.ask bundle calls).2.next bundle = (some token, session))
    (nonempty : token.lexeme ≠ "") :
    session.followedBy (startIn session.state (session.suffix input)) = session ∧
      ∃ trace, Runs bundle first trace session ∧
        (trace.map Prod.fst).filterMap Cycle.token? = (first.ask bundle calls).1 ++ [token] := by
  have pulls := pulls_next bundle (first.ask bundle calls).2
  rw [pulled] at pulls
  rcases runs_ask bundle calls first with ⟨front, asked, tokens⟩
  rcases pulls.runs with ⟨back, onward, last⟩
  rcases pulls.took_last with ⟨before, cycle, took, emits⟩
  have run := asked.trans onward
  refine ⟨?_, front ++ back, run, ?_⟩
  · exact followedBy_startIn (run.placed started) (visited_of_token took emits nonempty)
      (run.line_pos started)
  · rw [List.map_append, List.filterMap_append, tokens, last]
    rfl

/--
Behind a token that has characters, what comes is what a new session gives for the rest of the
input in the current state: token by token, at the end, and for the machine with all its registers.
-/
theorem resumes_behind_token {calls : Nat} {token : Token} (valid : bundle.validate = .ok bundle)
    (started : Session.start bundle input = .ok first)
    (pulled : (first.ask bundle calls).2.next bundle = (some token, session))
    (nonempty : token.lexeme ≠ "") :
    (bundle.startingIn session.state).validate = .ok (bundle.startingIn session.state) ∧
    ∃ fresh, Session.start (bundle.startingIn session.state) (session.suffix input) = .ok fresh ∧
      (∀ more, session.ask bundle more =
        ((fresh.ask (bundle.startingIn session.state) more).1.map
            (Token.raised (session.line - 1)),
          session.followedBy (fresh.ask (bundle.startingIn session.state) more).2)) ∧
      (∃ stream, tokenize (bundle.startingIn session.state) (session.suffix input) = .ok stream ∧
        TokenStream.ofRun (session.drain bundle) =
          session.record.append (stream.raised (session.line - 1) session.position) ∧
        tokenize bundle input = .ok (TokenStream.append
          ⟨(first.ask bundle calls).1 ++ [token], session.errors.toList, session.stats⟩
          (stream.raised (session.line - 1) session.position))) ∧
      ∀ machine, Machine.Steps bundle input.toList (Machine.begin bundle) machine →
        machine.phase = .ready → machine.session input.toList = session →
        ∀ other, Machine.Steps (bundle.startingIn session.state) (session.suffix input).toList
            (Machine.begin (bundle.startingIn session.state)) other → other.phase = .ready →
          ∃ later, Machine.Steps bundle input.toList machine later ∧ later.phase = .ready ∧
            later.session input.toList =
              session.followedBy (other.session (session.suffix input).toList) ∧
            later.tokens.toList = machine.tokens.toList ++
              other.tokens.toList.map (Token.raised (session.line - 1)) := by
  rcases fresh_of_pulled started pulled nonempty with ⟨resumes, trace, run, tokens⟩
  have consistent := Bundle.validate_eq_ok_iff.mp valid
  have known : bundle.states.contains session.state = true := by
    rw [start_eq_ok started] at run
    exact Machine.contains_of_runs consistent run
  have begins : Session.start (bundle.startingIn session.state) (session.suffix input) =
      .ok (startIn session.state (session.suffix input)) := if_pos known
  have drained := ofRun_drain_followedBy bundle session.state session
    (startIn session.state (session.suffix input))
  rw [resumes] at drained
  refine ⟨Bundle.validate_eq_ok_iff.mpr (Bundle.startingIn_consistent consistent known),
    _, begins, ?_, ⟨_, tokenize_of_start begins, drained, ?_⟩, ?_⟩
  · intro more
    have asked := ask_followedBy bundle session.state session more
      (startIn session.state (session.suffix input))
    rwa [resumes] at asked
  · rw [tokenize_of_start started, ofRun_drain_trans run drained, tokens]
  · intro machine steps ready shows other fresh halted
    rcases steps.amid (Machine.amid_begin bundle input) rfl with ⟨_, _, _, amid, -⟩
    have here := amid.session_eq ready
    rw [shows] at here
    rw [← here] at amid
    exact machine_followedBy session ready amid resumes fresh halted

def paged : Bundle where
  startState := "S"
  states := StateTable.push (StateTable.push (StateTable.push {} "S"
      ⟨some "WORD", ⟨0, 1⟩, [.incrementLine, .switchState "T"]⟩) "T"
      ⟨some "GAP", ⟨1, 2⟩, [.goBack 0, .switchState "S"]⟩) "S"
    ⟨none, ⟨1, 2⟩, []⟩
  graph := { nodes := #[{ transitions := OrderedMap.empty.insert 'a' 1 },
    { transitions := OrderedMap.empty.insert 'b' 2 }, {}] }

def behindWord : Session where
  rest := ['b', '?', 'a']
  position := 1
  state := "T"
  line := 2
  stats := { tokens := 1, matched := 1 }

theorem resumes_behind_token_paged :
    Session.start paged "ab?a" = .ok (startIn "S" "ab?a") ∧
      (startIn "S" "ab?a").next paged = (some ⟨"WORD", 2, "a"⟩, behindWord) ∧
      ∃ stream, tokenize (paged.startingIn "T") "b?a" = .ok stream ∧
        TokenStream.ofRun (behindWord.drain paged) =
          behindWord.record.append (stream.raised 1 1) := by
  have valid : paged.validate = .ok paged := by cbv
  have started : Session.start paged "ab?a" = .ok (startIn "S" "ab?a") := by cbv
  have stepped : ∃ cycle, (startIn "S" "ab?a").step paged = some (cycle, behindWord) ∧
      cycle.token? = some ⟨"WORD", 2, "a"⟩ := ⟨_, by cbv, by cbv⟩
  rcases stepped with ⟨cycle, stepped, emits⟩
  have pulled : (startIn "S" "ab?a").next paged = (some ⟨"WORD", 2, "a"⟩, behindWord) := by
    rw [next_of_some stepped, emits]
  have asked : ((startIn "S" "ab?a").ask paged 0).2.next paged = _ := pulled
  have resumes := resumes_behind_token valid started asked (by decide)
  rcases resumes.2 with ⟨fresh, -, -, ⟨stream, rest, drained, -⟩, -⟩
  exact ⟨started, pulled, stream, rest, drained⟩

end Session

end MaximalMunch
