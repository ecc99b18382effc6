import MaximalMunch.Proofs.ReferenceLexer
import MaximalMunch.Proofs.SessionRuns
import Mathlib

/-!
A lexer compiled from a specification gives the stream of the reference lexer, and no other. The
session and the reference lexer go over the input in step.
-/

namespace MaximalMunch

variable {specification : Specification} {bundle : Bundle} {input : String}
  {session next : Session} {cycle : Cycle}

theorem languages_of_realizes {graph : Graph} {definitions : DefinitionTable}
    {written : List RuleSpec} {rules : List Rule}
    (realizes : List.Forall₂ (Realizes graph definitions) written rules) :
    Rule.languages graph rules = written.map (RuleSpec.language definitions) := by
  induction realizes with
  | nil => rfl
  | cons first later ih =>
      rw [Rule.languages, List.map_cons, List.map_cons, first.language]
      exact congrArg _ ih

/-- What the actions make of a match, told by its length and by its end. -/
def Effect.taken (start : Nat) (effect : Effect) : Taken :=
  ⟨effect.state, effect.line, start + effect.kept, effect.unit⟩

@[simp]
theorem Effect.taken_apply (start : Nat) (effect : Effect) (action : Action) :
    (effect.apply action).taken start = (effect.taken start).obey start action := by
  cases action with
  | switchState target => rfl
  | goBack count => simp [Effect.apply, Effect.taken, Taken.obey, Nat.add_min_add_left]
  | suppress => rfl
  | incrementLine => rfl

@[simp]
theorem Effect.taken_applyAll (start : Nat) (effect : Effect) (actions : List Action) :
    (effect.applyAll actions).taken start =
      actions.foldl (Taken.obey start) (effect.taken start) := by
  induction actions generalizing effect with
  | nil => rfl
  | cons action later ih =>
      calc (effect.applyAll (action :: later)).taken start
          = ((effect.apply action).applyAll later).taken start := rfl
        _ = later.foldl (Taken.obey start) ((effect.apply action).taken start) := ih _
        _ = later.foldl (Taken.obey start) ((effect.taken start).obey start action) := by
          rw [Effect.taken_apply]

namespace Session

def moment (session : Session) : Moment :=
  ⟨session.position, session.state, session.line, session.closed⟩

namespace Placed

theorem unmatched (placed : Placed input session) (implements : Implements bundle specification)
    (scanned : scan bundle.graph (bundle.rules session.state) session.rest = none) :
    Unmatched (specification.languagesOf session.state)
      (input.toList.drop session.position) := by
  rw [scan_eq_none_iff, languages_of_realizes (implements.rules session.state),
    placed.rest] at scanned
  exact scanned

theorem takes (placed : Placed input session) (implements : Implements bundle specification)
    {found : Match}
    (scanned : scan bundle.graph (bundle.rules session.state) session.rest = some found) :
    Takes specification input.toList session.moment
      ((session.effectOf found).taken session.position) := by
  rcases scan_eq_some_iff.mp scanned with ⟨listed, wins⟩
  rcases getElem?_of_forall₂ (implements.rules session.state).flip listed with
    ⟨written, original, realized⟩
  rw [languages_of_realizes (implements.rules session.state), placed.rest] at wins
  refine ⟨found.index, written, found.length, original, wins, ?_⟩
  rw [effectOf, Effect.taken_applyAll, Moment.take, realized.actions, Effect.taken, realized.unit]
  rfl

theorem outcome (placed : Placed input session) (effect : Effect) :
    (keep session.stats effect (session.rest.take effect.kept)).1 =
      (effect.taken session.position).outcome input.toList session.position := by
  have span : session.rest.take effect.kept =
      input.toList.extract session.position (session.position + effect.kept) := by
    rw [List.extract, Nat.add_sub_cancel_left, placed.rest]
  cases unit : effect.unit with
  | none => simp [keep, Taken.outcome, Effect.taken, unit]
  | some tag => simp [keep, Taken.outcome, Effect.taken, unit, span]

end Placed

theorem moment_advanced (session : Session) (effect : Effect) :
    (session.advanced effect).moment =
      session.moment.behind (effect.taken session.position) := by
  by_cases empty : effect.kept = 0
  · simp [moment, Moment.behind, Effect.taken, closed, empty]
  · simp [moment, Moment.behind, Effect.taken, closed, empty]

/-- A cycle of the session is a turn of the reference lexer. -/
theorem turn_of_took (implements : Implements bundle specification)
    (placed : Placed input session) (took : Took bundle session cycle next) :
    Turn specification input.toList session.moment cycle.outcome next.moment := by
  cases took with
  | unmatched reads scanned =>
      exact .unmatched (placed.head reads) (placed.unmatched implements scanned)
  | @refused char tail found reads scanned empty repeats =>
      have takes := placed.takes implements scanned
      have stays : ((session.effectOf found).taken session.position).stop = session.position := by
        rw [Effect.taken, empty, Nat.add_zero]
      exact .refused (placed.head reads) takes stays repeats
  | @kept found unfinished scanned moves =>
      have takes := placed.takes implements scanned
      rw [moment_advanced, placed.outcome]
      apply Turn.kept takes
      intro stays
      apply moves
      exact Nat.add_eq_left.mp stays

end Session

@[simp]
theorem TokenStream.append_assoc (first second third : TokenStream) :
    (first.append second).append third = first.append (second.append third) := by
  simp [append, List.append_assoc, Nat.add_assoc]

@[simp]
theorem TokenStream.append_empty (stream : TokenStream) : stream.append ⟨[], [], {}⟩ = stream := by
  simp [append]

namespace Session

def record (session : Session) : TokenStream := ⟨[], session.errors.toList, session.stats⟩

theorem record_of_took (took : Took bundle session cycle next) :
    session.record.append (cycle.outcome.stream (next.position - session.position)) =
      ⟨cycle.token?.toList, next.errors.toList, next.stats⟩ := by
  cases took with
  | unmatched reads scanned =>
      simp [record, Outcome.stream, TokenStream.append, Cycle.token?, skip]
  | refused reads scanned empty repeats =>
      simp [record, Outcome.stream, TokenStream.append, Cycle.token?, skip]
  | @kept found unfinished scanned moves =>
      cases unit : (session.effectOf found).unit with
      | none =>
          simp [record, Outcome.stream, TokenStream.append, Cycle.token?, keep, unit]
      | some tag =>
          simp [record, Outcome.stream, TokenStream.append, Cycle.token?, keep, unit]

theorem ofRun_drain_of_some (stepped : session.step bundle = some (cycle, next))
    {stream : TokenStream}
    (later : TokenStream.ofRun (next.drain bundle) = next.record.append stream) :
    TokenStream.ofRun (session.drain bundle) = session.record.append
      ((cycle.outcome.stream (next.position - session.position)).append stream) := by
  have tokens := congrArg TokenStream.tokens later
  have errors := congrArg TokenStream.errors later
  have stats := congrArg TokenStream.stats later
  simp only [TokenStream.ofRun, TokenStream.append, record, List.nil_append] at tokens errors stats
  rw [← TokenStream.append_assoc, record_of_took (took_of_step stepped), drain_of_some stepped]
  rw [TokenStream.ofRun, TokenStream.append, errors, stats]
  cases emits : cycle.token? with
  | none => rw [List.filterMap_cons_none emits, tokens]; rfl
  | some token => rw [List.filterMap_cons_some emits, tokens]; rfl

theorem lexes_drain (implements : Implements bundle specification) (session : Session)
    (placed : Placed input session) : ∃ stream,
      Lexes specification input.toList session.moment stream ∧
        TokenStream.ofRun (session.drain bundle) = session.record.append stream := by
  cases stepped : session.step bundle with
  | none =>
      have nothing := step_eq_none_iff.mp stepped
      have length := placed.rest_length
      have bounded := placed.bounded
      rw [nothing, List.length_nil] at length
      refine ⟨⟨[], [], {}⟩, .ended ?_, ?_⟩
      · show session.position = input.toList.length
        rw [String.length_toList]
        omega
      · rw [drain_of_none stepped, TokenStream.append_empty]
        rfl
  | some taken =>
      have _ := step_progress stepped
      have took := took_of_step stepped
      rcases lexes_drain implements taken.2 (placed.took took) with ⟨stream, lexes, same⟩
      exact ⟨_, .turn (turn_of_took implements placed took) lexes,
        ofRun_drain_of_some stepped same⟩
termination_by (session.rest.length, session.prospects bundle)
decreasing_by assumption

end Session

theorem generate_eq_ok {source : String} (generated : generate source = .ok bundle) :
    ∃ specification, Specification.ofText source = .ok specification ∧
      specification.compile = .ok bundle := by
  unfold generate at generated
  cases read : Specification.ofText source with
  | error fault => simp [read, Except.mapError, bind, Except.bind] at generated
  | ok specification =>
      simp only [read, Except.mapError, bind, Except.bind] at generated
      exact ⟨specification, rfl, generated⟩

theorem lexes_tokenize (implements : Implements bundle specification) (input : String) :
    ∃ stream, tokenize bundle input = .ok stream ∧
      Lexes specification input.toList (Moment.start specification) stream := by
  have started : Session.start bundle input =
      .ok (Session.startIn bundle.startState input) := by
    rw [Session.start, if_pos implements.known]
  have placed := Session.startIn_placed bundle.startState input
  rcases Session.lexes_drain implements _ placed with ⟨stream, lexes, same⟩
  refine ⟨TokenStream.ofRun ((Session.startIn bundle.startState input).drain bundle), ?_, ?_⟩
  · rw [tokenize, started]
    rfl
  · have fresh : (Session.startIn bundle.startState input).record.append stream = stream := by
      simp [Session.record, Session.startIn, TokenStream.append]
    have begins : (Session.startIn bundle.startState input).moment =
        Moment.start specification := by
      rw [Moment.start, ← implements.startState]
      rfl
    rw [same, fresh, ← begins]
    exact lexes

/--
Tokenizing with a generated lexer gives, on every input, the one stream that the reference lexer
gives for the specification the source was read to.
-/
theorem tokenize_refines {source : String} (generated : generate source = .ok bundle) :
    ∃ specification, Specification.ofText source = .ok specification ∧
      ∀ input : String, ∃ stream, tokenize bundle input = .ok stream ∧
        ∀ other, Lexes specification input.toList (Moment.start specification) other ↔
          other = stream := by
  rcases generate_eq_ok generated with ⟨specification, read, compiled⟩
  have implements := Specification.implements_of_compile compiled
  refine ⟨specification, read, ?_⟩
  intro input
  rcases lexes_tokenize implements input with ⟨stream, tokenized, lexes⟩
  refine ⟨stream, tokenized, ?_⟩
  intro other
  constructor
  · intro alsoLexes
    exact alsoLexes.unique lexes
  · intro same
    rw [same]
    exact lexes

def numberList : String :=
  "\x7bbit\x7d 0|1\n%X Item Gap\n%L NUMBER\n" ++
    "<Item>\x7bbit\x7d\x7bbit\x7d*\n\x7b\nNUMBER\nUDJI_U_STANJE Gap\n\x7d\n" ++
    "<Gap>,\n\x7b\n-\nUDJI_U_STANJE Item\nVRATI_SE 0\n\x7d\n<Item>,\n\x7b\n-\n\x7d\n"

theorem tokenize_refines_numberList : ∃ bundle specification,
    generate numberList = .ok bundle ∧ Specification.ofText numberList = .ok specification ∧
      ∃ stream, tokenize bundle "01,1x" = .ok stream ∧
        Lexes specification ['0', '1', ',', '1', 'x'] (Moment.start specification) stream := by
  have generates : (generate numberList).isOk = true := by cbv
  cases generated : generate numberList with
  | error fault =>
      rw [generated] at generates
      cases generates
  | ok bundle =>
      rcases tokenize_refines generated with ⟨specification, read, refines⟩
      rcases refines "01,1x" with ⟨stream, tokenized, only⟩
      exact ⟨bundle, specification, rfl, read, stream, tokenized, (only stream).mpr rfl⟩

end MaximalMunch
