import MaximalMunch.Command.Run
import MaximalMunch.Proofs.GeneratedBundles
import MaximalMunch.Proofs.WorkspaceFiles

/-!
What commands do in a workspace, told by the texts they read. A lexer that was generated and stored
does what the same lexer does without having been stored.
-/

namespace MaximalMunch

namespace LogEvent

theorem lines_of_quiet {events : List LogEvent} (quiet : ∀ event ∈ events, event.severity ≠ .warn) :
    lines 0 events = "" := by
  have none : events.filter (fun event => event.severity.verbosity ≤ 0) = [] := by
    rw [List.filter_eq_nil_iff]
    intro event member
    cases loud : event.severity with
    | warn => exact absurd loud (quiet event member)
    | debug => decide
    | trace => decide
  rw [lines, none]
  rfl

end LogEvent

theorem quiet_compileEvents (graph : Graph) (rules : List RuleSpec) :
    ∀ event ∈ graph.compileEvents rules, event.severity ≠ .warn := by
  induction rules generalizing graph with
  | nil => simp [Graph.compileEvents]
  | cons rule rules ih =>
      rw [Graph.compileEvents]
      split
      · simp
      · exact List.forall_mem_cons.mpr ⟨by simp [LogEvent.severity], ih _⟩

theorem quiet_generationEvents (source : String) :
    ∀ event ∈ generationEvents source, event.severity ≠ .warn := by
  rw [generationEvents]
  split
  · simp
  case h_2 specification read =>
    intro event member
    rcases List.mem_append.mp member with front | back
    · rcases List.mem_cons.mp front with rfl | compiled
      · simp [Specification.parsedEvent, LogEvent.severity]
      · rw [Specification.compileEvents] at compiled
        split at compiled
        · cases compiled
        · rcases List.mem_cons.mp compiled with rfl | later
          · simp [LogEvent.severity]
          · exact quiet_compileEvents _ _ event later
    · rw [Specification.layoutEvents] at back
      split at back
      · cases back
      · rw [List.mem_singleton.mp back]
        simp [LogEvent.severity]

namespace Workspace

variable {workspace after : Workspace} {path : String} {bundle : Bundle} {α β : Type}

@[simp]
theorem report_empty (workspace : Workspace) : workspace.report "" = workspace := by
  simp [report]

theorem run_bind_ok {action : ExceptT LexerError (StateM Workspace) α}
    (next : α → ExceptT LexerError (StateM Workspace) β) {value : α}
    (runs : action.run.run workspace = (.ok value, after)) :
    (action >>= next).run.run workspace = (next value).run.run after := by
  rw [ExceptT.run_bind, StateT.run_bind, runs]
  rfl

theorem run_bind_error {action : ExceptT LexerError (StateM Workspace) α}
    (next : α → ExceptT LexerError (StateM Workspace) β) {error : LexerError}
    (runs : action.run.run workspace = (.error error, after)) :
    (action >>= next).run.run workspace = (.error error, after) := by
  rw [ExceptT.run_bind, StateT.run_bind, runs]
  rfl

theorem run_result (workspace : Workspace) {given result : Except LexerError α}
    (same : given = result) :
    (liftM given : ExceptT LexerError (StateM Workspace) α).run.run workspace =
      (result, workspace) := by
  subst same
  cases given <;> rfl

theorem run_log (workspace : Workspace) (verbosity : Nat) (events : List LogEvent) :
    (liftM (host.log verbosity events) : ExceptT LexerError (StateM Workspace) Unit).run.run
      workspace = (.ok (), workspace.report (LogEvent.lines verbosity events)) :=
  rfl

theorem run_log_of_quiet (workspace : Workspace) {events : List LogEvent}
    (quiet : ∀ event ∈ events, event.severity ≠ .warn) :
    (liftM (host.log 0 events) : ExceptT LexerError (StateM Workspace) Unit).run.run workspace =
      (.ok (), workspace) := by
  rw [run_log, LogEvent.lines_of_quiet quiet, report_empty]

@[simp]
theorem decodeText_toUTF8 (text : String) : Host.decodeText text.toUTF8 = .ok text := by
  have decoded : String.fromUTF8? text.toUTF8 = some text := dif_pos text.isValidUTF8
  rw [Host.decodeText, decoded]

/-- The text that a path leads to; the standard input has a path of its own. -/
def sourceOf (workspace : Workspace) (path : String) : Except LexerError String :=
  if isStandardInput path then Host.decodeText workspace.input
  else (workspace.read path).mapError .file >>= Host.decodeText

/-- What is left of the workspace once that text was read. -/
def afterSource (workspace : Workspace) (path : String) : Workspace :=
  if isStandardInput path then { workspace with input := .empty }
  else workspace.afterReading path

@[simp]
theorem run_readSource (workspace : Workspace) (path : String) :
    (host.readSource path).run.run workspace =
      (workspace.sourceOf path, workspace.afterSource path) := by
  rw [Host.readSource, sourceOf, afterSource]
  split
  case isTrue =>
    have drawn : (liftM host.readInput : ExceptT LexerError (StateM Workspace) _).run.run
        workspace = (.ok workspace.input, { workspace with input := .empty }) := rfl
    rw [run_bind_ok _ drawn]
    exact run_result _ rfl
  case isFalse =>
    have fetched : (host.fetch path).run.run workspace =
        ((workspace.read path).mapError .file, workspace.afterReading path) := rfl
    cases read : (workspace.read path).mapError LexerError.file with
    | error fault =>
        rw [read] at fetched
        exact run_bind_error _ fetched
    | ok content =>
        rw [read] at fetched
        rw [run_bind_ok _ fetched]
        exact run_result _ rfl

@[simp]
theorem run_generateFrom (workspace : Workspace) (path : String) :
    (host.generateFrom 0 path).run.run workspace =
      (workspace.sourceOf path >>= generate, workspace.afterSource path) := by
  have source := run_readSource workspace path
  rw [Host.generateFrom]
  cases read : workspace.sourceOf path with
  | error error =>
      rw [read] at source
      exact run_bind_error _ source
  | ok text =>
      rw [read] at source
      rw [run_bind_ok _ source, run_bind_ok _ (run_log_of_quiet _ (quiet_generationEvents text))]
      exact run_result _ rfl

section Analysis

variable {input : Option String} {reporting : Reporting} {error : LexerError} {text : String}
  {session : Session}

theorem run_analyze_of_error (bundle : Bundle) (reporting : Reporting)
    (unread : workspace.sourceOf (input.getD standardInput) = .error error) :
    (host.analyze 0 bundle input reporting).run.run workspace =
      (.error error, workspace.afterSource (input.getD standardInput)) := by
  have source := run_readSource workspace (input.getD standardInput)
  rw [unread] at source
  exact run_bind_error _ source

def tell (workspace : Workspace) (session : Session) (run : List Cycle × Session)
    (reporting : Reporting) : Workspace :=
  ((workspace.report (LogEvent.lines 0 (session.events run.1))).print
    (TokenStream.ofRun run).text).report ((TokenStream.ofRun run).remarks reporting)

theorem run_analyze_of_ok (reporting : Reporting)
    (read : workspace.sourceOf (input.getD standardInput) = .ok text)
    (started : Session.start bundle text = .ok session) :
    (host.analyze 0 bundle input reporting).run.run workspace =
      (.ok ((TokenStream.ofRun (session.drain bundle)).exit reporting.strict),
        (workspace.afterSource (input.getD standardInput)).tell session (session.drain bundle)
          reporting) := by
  have source := run_readSource workspace (input.getD standardInput)
  rw [read] at source
  rw [Host.analyze, run_bind_ok _ source, run_bind_ok _ (run_result _ started),
    run_bind_ok _ (run_log _ _ _)]
  rfl

end Analysis

def launch (workspace : Workspace) (words : List String) : Exit × Workspace :=
  (host.interpret words).run workspace

variable {words : List String} {command : Command} {exit : Exit} {error : LexerError}

theorem launch_of_ok (read : Invocation.ofWords words = .ok ⟨0, command⟩)
    (done : (host.execute 0 command).run.run workspace = (.ok exit, after)) :
    workspace.launch words = (exit, after) := by
  rw [launch, Host.interpret, read]
  dsimp only
  rw [Host.perform, StateT.run_bind, done]
  rfl

theorem launch_of_error (read : Invocation.ofWords words = .ok ⟨0, command⟩)
    (stopped : (host.execute 0 command).run.run workspace = (.error error, after)) :
    workspace.launch words = (.failure, after.report ("Error: " ++ error.message ++ "\n")) := by
  rw [launch, Host.interpret, read]
  dsimp only
  rw [Host.perform, StateT.run_bind, stopped]
  rfl

end Workspace

end MaximalMunch
