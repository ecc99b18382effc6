import MaximalMunch.Error
import MaximalMunch.Session.Progress

/-!
Running a session: token by token, or to the end of its input.
-/

namespace MaximalMunch

namespace Session

def startIn (state input : String) : Session := { rest := input.toList, state := state }

/-- Sessions begin in the start state, which the state table must hold. -/
def start (bundle : Bundle) (input : String) : Except LexerError Session :=
  if bundle.states.contains bundle.startState then .ok (startIn bundle.startState input)
  else .error (.bundle (.missingStart bundle.startState))

/-- Runs cycles until one of them emits a token or the input is used up. -/
def next (bundle : Bundle) (session : Session) : Option Token × Session :=
  match stepped : session.step bundle with
  | none => (none, session)
  | some (cycle, later) =>
    match cycle.token? with
    | some token => (some token, later)
    | none =>
      have _ := step_progress stepped
      later.next bundle
termination_by (session.rest.length, session.prospects bundle)
decreasing_by assumption

theorem next_of_none {bundle : Bundle} {session : Session} (ended : session.step bundle = none) :
    session.next bundle = (none, session) := by
  unfold next
  split <;> simp_all

theorem next_of_some {bundle : Bundle} {session later : Session} {cycle : Cycle}
    (stepped : session.step bundle = some (cycle, later)) :
    session.next bundle =
      match cycle.token? with
      | some token => (some token, later)
      | none => later.next bundle := by
  conv => lhs; unfold next
  split <;> simp_all

/-- Runs all cycles that are left, and puts them before those already `done`, latest first. -/
def drainFrom (bundle : Bundle) (session : Session) (done : List Cycle) : List Cycle × Session :=
  match stepped : session.step bundle with
  | none => (done, session)
  | some (cycle, later) =>
    have _ := step_progress stepped
    later.drainFrom bundle (cycle :: done)
termination_by (session.rest.length, session.prospects bundle)
decreasing_by assumption

def drain (bundle : Bundle) (session : Session) : List Cycle × Session :=
  let (done, session) := session.drainFrom bundle []
  (done.reverse, session)

theorem drainFrom_of_none {bundle : Bundle} {session : Session} (ended : session.step bundle = none)
    (done : List Cycle) : session.drainFrom bundle done = (done, session) := by
  unfold drainFrom
  split <;> simp_all

theorem drainFrom_of_some {bundle : Bundle} {session later : Session} {cycle : Cycle}
    (stepped : session.step bundle = some (cycle, later)) (done : List Cycle) :
    session.drainFrom bundle done = later.drainFrom bundle (cycle :: done) := by
  conv => lhs; unfold drainFrom
  split <;> simp_all

theorem drainFrom_eq (bundle : Bundle) (session : Session) (done : List Cycle) :
    session.drainFrom bundle done =
      ((session.drainFrom bundle []).1 ++ done, (session.drainFrom bundle []).2) := by
  cases stepped : session.step bundle with
  | none => simp [drainFrom_of_none stepped]
  | some taken =>
    have _ := step_progress stepped
    rw [drainFrom_of_some stepped, drainFrom_of_some stepped, drainFrom_eq bundle taken.2 [taken.1],
      drainFrom_eq bundle taken.2 (taken.1 :: done)]
    simp
termination_by (session.rest.length, session.prospects bundle)
decreasing_by all_goals assumption

theorem drain_of_none {bundle : Bundle} {session : Session} (ended : session.step bundle = none) :
    session.drain bundle = ([], session) := by
  simp [drain, drainFrom_of_none ended]

theorem drain_of_some {bundle : Bundle} {session later : Session} {cycle : Cycle}
    (stepped : session.step bundle = some (cycle, later)) :
    session.drain bundle = (cycle :: (later.drain bundle).1, (later.drain bundle).2) := by
  simp [drain, drainFrom_of_some stepped, drainFrom_eq bundle later [cycle]]

end Session

structure TokenStream where
  tokens : List Token
  errors : List LexicalError
  stats : Stats
  deriving DecidableEq, Repr

def TokenStream.ofRun (run : List Cycle × Session) : TokenStream where
  tokens := run.1.filterMap Cycle.token?
  errors := run.2.errors.toList
  stats := run.2.stats

def tokenize (bundle : Bundle) (input : String) : Except LexerError TokenStream := do
  let session ← Session.start bundle input
  return TokenStream.ofRun (session.drain bundle)

end MaximalMunch
