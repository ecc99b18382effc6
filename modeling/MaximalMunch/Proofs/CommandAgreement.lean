import MaximalMunch.Proofs.CommandRuns

/-!
Running a source at once agrees with generating its lexer, storing it and analyzing with it in
another process: the same is seen of both, and they fail alike.
-/

namespace MaximalMunch

def Command.source? : Command → Option String
  | .generate definitions _ => some definitions
  | .analyze .. => none
  | .run definitions .. => some definitions

namespace Workspace

variable {workspace : Workspace} {path definitions output : String} {place start : Place}
  {names : List String} {given : ByteArray}

def reopened (workspace : Workspace) (given : ByteArray) : Workspace :=
  { files := workspace.files, input := given }

theorem place_of_input {place : Place} (device : Device.ofPlace? place = some .input) :
    place = ["dev", "stdin"] := by
  unfold Device.ofPlace? at device
  split at device
  case h_3 => rfl
  all_goals cases device

theorem content?_reopened (workspace : Workspace) (given : ByteArray) {place : Place}
    (elsewhere : place ≠ ["dev", "stdin"]) :
    (workspace.reopened given).content? place = workspace.content? place := by
  rw [content?, content?]
  cases device : Device.ofPlace? place with
  | none => rfl
  | some device' =>
      cases device' with
      | input => exact absurd (place_of_input device) elsewhere
      | null => rfl
      | full => rfl
      | output => rfl
      | errors => rfl

@[simp]
theorem fault_reopened (workspace : Workspace) (given : ByteArray) (place : Place) :
    (workspace.reopened given).fault place = workspace.fault place := by
  have held : ((workspace.reopened given).content? place).isSome =
      (workspace.content? place).isSome := by
    rw [content?, content?]
    cases Device.ofPlace? place with
    | none => rfl
    | some device => cases device <;> rfl
  rw [fault, fault, held]
  rfl

@[simp]
theorem walk_reopened (workspace : Workspace) (given : ByteArray) (start : Place)
    (names : List String) :
    (workspace.reopened given).walk start names = workspace.walk start names := by
  induction names generalizing start with
  | nil => rfl
  | cons name names ih =>
      rw [walk, walk, ih, fault_reopened]
      rfl

@[simp]
theorem locate_reopened (workspace : Workspace) (given : ByteArray) (path : String) :
    (workspace.reopened given).locate path = workspace.locate path := by
  rw [locate, locate, follow, follow, walk_reopened]

@[simp]
theorem stopOf_reopened (workspace : Workspace) (given : ByteArray) (start : Place)
    (names : List String) :
    (workspace.reopened given).stopOf start names = workspace.stopOf start names := by
  induction names generalizing start with
  | nil => rfl
  | cons name names ih =>
      rw [stopOf, stopOf, ih]
      rfl

theorem Stores.reopened (stores : workspace.Stores path place) (given : ByteArray) :
    (workspace.reopened given).Stores path place :=
  ⟨(locate_reopened workspace given path).trans stores.located, stores.named, stores.free,
    stores.plain⟩

theorem Apart.reopened (apart : workspace.Apart path place) (given : ByteArray) :
    (workspace.reopened given).Apart path place := by
  rw [Apart, stopOf_reopened]
  exact apart

/-- A path that, whether it can be read or not, does not lead to the standard input. -/
structure FromFile (workspace : Workspace) (path : String) : Prop where
  named : isStandardInput path = false
  located : workspace.locate path ≠ .ok ["dev", "stdin"]

namespace FromFile

theorem afterSource_eq (file : workspace.FromFile path) : workspace.afterSource path = workspace := by
  rw [afterSource, file.named, if_neg Bool.false_ne_true, afterReading]
  split
  case h_1 located => exact absurd located file.located
  case h_2 => rfl

theorem reopened (file : workspace.FromFile path) (given : ByteArray) :
    (workspace.reopened given).FromFile path :=
  ⟨file.named, (locate_reopened workspace given path).symm ▸ file.located⟩

theorem sourceOf_reopened (file : workspace.FromFile path) (given : ByteArray) :
    (workspace.reopened given).sourceOf path = workspace.sourceOf path := by
  have same : (workspace.reopened given).read path = workspace.read path := by
    rw [read, read, locate_reopened]
    cases located : workspace.locate path with
    | error fault => rfl
    | ok place =>
        have elsewhere : place ≠ ["dev", "stdin"] := by
          rintro rfl
          exact file.located located
        simp only [bind, Except.bind]
        rw [content?_reopened workspace given elsewhere, fault_reopened]
  rw [sourceOf, sourceOf, file.named, if_neg Bool.false_ne_true, if_neg Bool.false_ne_true, same]

theorem put (file : workspace.FromFile path) (stores : workspace.Stores output place)
    (apart : workspace.Apart path place) (content : ByteArray) :
    (workspace.put place content).FromFile path :=
  ⟨file.named, (stores.locate_put content apart).symm ▸ file.located⟩

end FromFile

theorem Stores.sourceOf_put (stores : workspace.Stores output place) (content : ByteArray)
    (apart : isStandardInput path = false → workspace.Apart path place) :
    (workspace.put place content).sourceOf path = workspace.sourceOf path := by
  rw [sourceOf, sourceOf]
  split
  · rfl
  case isFalse named =>
    rw [stores.read_put content (apart (eq_false_of_ne_true named))]

structure Seen where
  code : UInt32
  printed : String
  reported : String
  deriving DecidableEq, Repr

def seen (ended : Exit × Workspace) : Seen := ⟨ended.1.code, ended.2.printed, ended.2.reported⟩

def Seen.ofAnalysis (bundle : Bundle) (reporting : Reporting) : Except LexerError String → Seen
  | .error error => ⟨Exit.failure.code, "", "Error: " ++ error.message ++ "\n"⟩
  | .ok text =>
    let session := Session.startIn bundle.startState text
    let run := session.drain bundle
    let stream := TokenStream.ofRun run
    ⟨(stream.exit reporting.strict).code, stream.text,
      LogEvent.lines 0 (session.events run.1) ++ stream.remarks reporting⟩

section Commands

variable {words others : List String} {command other : Command} {bundle : Bundle}
  {input : Option String} {reporting : Reporting} {error : LexerError} {source : String}

theorem launch_eq_of_run_eq (read : Invocation.ofWords words = .ok ⟨0, command⟩)
    (also : Invocation.ofWords others = .ok ⟨0, other⟩)
    (same : (host.execute 0 command).run.run workspace =
      (host.execute 0 other).run.run workspace) :
    workspace.launch words = workspace.launch others := by
  rw [launch, launch, Host.interpret, Host.interpret, read, also]
  dsimp only
  rw [Host.perform, Host.perform, StateT.run_bind, StateT.run_bind, same]

theorem streams_afterSource (workspace : Workspace) (path : String) :
    (workspace.afterSource path).printed = workspace.printed ∧
      (workspace.afterSource path).reported = workspace.reported := by
  rw [afterSource, afterReading]
  split
  · exact ⟨rfl, rfl⟩
  · split <;> exact ⟨rfl, rfl⟩

theorem seen_launch (printed : workspace.printed = "") (reported : workspace.reported = "")
    (read : Invocation.ofWords words = .ok ⟨0, command⟩)
    (known : bundle.states.contains bundle.startState = true)
    (analyzes : (host.execute 0 command).run.run workspace =
      (host.analyze 0 bundle input reporting).run.run workspace) :
    seen (workspace.launch words) =
      Seen.ofAnalysis bundle reporting (workspace.sourceOf (input.getD standardInput)) := by
  have streams := streams_afterSource workspace (input.getD standardInput)
  rw [printed, reported] at streams
  cases source : workspace.sourceOf (input.getD standardInput) with
  | error error =>
      rw [run_analyze_of_error bundle reporting source] at analyzes
      rw [launch_of_error read analyzes, seen, Seen.ofAnalysis, report, streams.1, streams.2,
        String.empty_append]
  | ok text =>
      have started : Session.start bundle text =
          .ok (Session.startIn bundle.startState text) := if_pos known
      rw [run_analyze_of_ok reporting source started] at analyzes
      rw [launch_of_ok read analyzes, seen, Seen.ofAnalysis, tell]
      simp [report, print, streams.1, streams.2]

theorem run_generate (file : workspace.FromFile definitions)
    (read : workspace.sourceOf definitions = .ok source) (made : generate source = .ok bundle)
    (stores : workspace.Stores output place) :
    (host.execute 0 (.generate definitions output)).run.run workspace =
      (.ok .success, (workspace.put place bundle.encode.toUTF8).report
        (writtenText output bundle)) := by
  have generated := run_generateFrom workspace definitions
  rw [read, file.afterSource_eq] at generated
  simp only [bind, Except.bind, made] at generated
  have quiet : ∀ event ∈ [LogEvent.saved output bundle.graph.size bundle.ruleCount],
      event.severity ≠ .warn := by simp [LogEvent.severity]
  rw [Host.execute, run_bind_ok _ generated, run_bind_ok _ (run_saveBundle stores),
    run_bind_ok _ (run_log_of_quiet _ quiet)]
  rfl

theorem run_run (input : Option String) (reporting : Reporting)
    (file : workspace.FromFile definitions)
    (read : workspace.sourceOf definitions = .ok source) (made : generate source = .ok bundle) :
    (host.execute 0 (.run definitions input reporting)).run.run workspace =
      (host.analyze 0 bundle input reporting).run.run workspace := by
  have generated := run_generateFrom workspace definitions
  rw [read, file.afterSource_eq] at generated
  simp only [bind, Except.bind, made] at generated
  rw [Host.execute, run_bind_ok _ generated]

theorem run_analyze_put (input : Option String) (reporting : Reporting)
    (stores : workspace.Stores output place) (fits : bundle.Fits)
    (valid : bundle.validate = .ok bundle) :
    (host.execute 0 (.analyze output input reporting)).run.run
        (workspace.put place bundle.encode.toUTF8) =
      (host.analyze 0 bundle input reporting).run.run
        (workspace.put place bundle.encode.toUTF8) := by
  have loaded : (host.loadBundle output).run.run (workspace.put place bundle.encode.toUTF8) = _ :=
    run_loadBundle_put stores
  rw [Bundle.load_of_decode? (Bundle.decode?_of_fits fits) valid] at loaded
  have quiet : ∀ event ∈ [LogEvent.loaded output bundle.graph.size bundle.ruleCount],
      event.severity ≠ .warn := by simp [LogEvent.severity]
  rw [Host.execute, run_bind_ok _ loaded, run_bind_ok _ (run_log_of_quiet _ quiet)]

theorem launch_of_unmade (file : workspace.FromFile definitions)
    (unmade : (workspace.sourceOf definitions >>= generate) = .error error)
    (read : Invocation.ofWords words = .ok ⟨0, command⟩)
    (makes : command.source? = some definitions) :
    workspace.launch words =
      (.failure, workspace.report ("Error: " ++ error.message ++ "\n")) := by
  have stopped := run_generateFrom workspace definitions
  rw [unmade, file.afterSource_eq] at stopped
  apply launch_of_error read
  cases command with
  | generate path output =>
      cases makes
      rw [Host.execute, run_bind_error _ stopped]
  | analyze path input reporting => cases makes
  | run path input reporting =>
      cases makes
      rw [Host.execute, run_bind_error _ stopped]

end Commands

/--
A strict analysis, and no other, turns errors into an exit code. Every token is printed, in order,
on a line of its own with its tag, its line and its lexeme.
-/
structure Judges (bundle : Bundle) (strict : Bool) (source : Except LexerError String)
    (shown : Seen) : Prop where
  refused : shown.code = 2 ↔ strict = true ∧ ∃ text stream, source = .ok text ∧
    tokenize bundle text = .ok stream ∧ stream.errors ≠ []
  whole : ∀ text, source = .ok text →
    ∃ stream, tokenize bundle text = .ok stream ∧
      shown.printed = String.join (stream.tokens.map fun token =>
        token.tag ++ " " ++ toString token.line ++ " " ++ token.lexeme ++ "\n")

theorem code_exit_eq_two_iff (stream : TokenStream) (strict : Bool) :
    (stream.exit strict).code = 2 ↔ strict = true ∧ stream.errors ≠ [] := by
  rw [TokenStream.exit]
  by_cases refuses : (strict && !stream.errors.isEmpty) = true
  · rw [if_pos refuses]
    simpa [Exit.code] using refuses
  · rw [if_neg refuses]
    simpa [Exit.code] using refuses

theorem judges_ofAnalysis {bundle : Bundle}
    (known : bundle.states.contains bundle.startState = true) (reporting : Reporting)
    (source : Except LexerError String) :
    Judges bundle reporting.strict source (.ofAnalysis bundle reporting source) := by
  cases source with
  | error error =>
      constructor
      · simp [Seen.ofAnalysis, Exit.code]
      · simp
  | ok text =>
      have started : Session.start bundle text =
          .ok (Session.startIn bundle.startState text) := if_pos known
      have tokenized := Session.tokenize_of_start started
      constructor
      · apply (code_exit_eq_two_iff _ _).trans
        constructor
        · rintro ⟨strict, errors⟩
          exact ⟨strict, text, _, rfl, tokenized, errors⟩
        · rintro ⟨strict, _, stream, ⟨⟩, also, errors⟩
          rw [tokenized] at also
          cases also
          exact ⟨strict, errors⟩
      · rintro _ ⟨⟩
        exact ⟨_, tokenized, rfl⟩

/-- A new process that has the stored lexer among its files. -/
theorem agrees_of_stored {analyzing running : List String} {input : Option String}
    {reporting : Reporting} {source : String} {bundle : Bundle}
    (printed : workspace.printed = "") (reported : workspace.reported = "")
    (analyzes : Invocation.ofWords analyzing = .ok ⟨0, .analyze output input reporting⟩)
    (runs : Invocation.ofWords running = .ok ⟨0, .run definitions input reporting⟩)
    (file : workspace.FromFile definitions) (read : workspace.sourceOf definitions = .ok source)
    (made : generate source = .ok bundle) (countable : bundle.graph.size ≤ nodeLimit)
    (stores : workspace.Stores output place) (apart : workspace.Apart definitions place) :
    (workspace.put place bundle.encode.toUTF8).launch analyzing =
        (workspace.put place bundle.encode.toUTF8).launch running ∧
      ((isStandardInput (input.getD standardInput) = false →
          workspace.Apart (input.getD standardInput) place) →
        seen ((workspace.put place bundle.encode.toUTF8).launch analyzing) =
          seen (workspace.launch running)) ∧
      Judges bundle reporting.strict
        ((workspace.put place bundle.encode.toUTF8).sourceOf (input.getD standardInput))
        (seen ((workspace.put place bundle.encode.toUTF8).launch analyzing)) := by
  rcases fits_of_generate made countable with ⟨fits, valid⟩
  have known := (Bundle.validate_eq_ok_iff.mp valid).start
  have analysis := run_analyze_put input reporting stores fits valid
  have still : (workspace.put place bundle.encode.toUTF8).sourceOf definitions = .ok source :=
    (stores.sourceOf_put _ fun _ => apart).trans read
  have beside := run_run input reporting (file.put stores apart _) still made
  have shown := seen_launch (show (workspace.put place _).printed = "" from printed)
    (show (workspace.put place _).reported = "" from reported) analyzes known analysis
  refine ⟨launch_eq_of_run_eq analyzes runs (analysis.trans beside.symm), ?_, ?_⟩
  · intro elsewhere
    have before := seen_launch printed reported runs known (run_run input reporting file read made)
    rw [shown, before, stores.sourceOf_put _ elsewhere]
  · rw [shown]
    exact judges_ofAnalysis known reporting _

/--
With the source in a file: if it gives a lexer, generating stores it in a file of its own, and
analyzing with what was stored does in another process what running the source does there, or did
before. If it gives none, both stop with the same message and touch no file. The limit says
that 32 bits can number the nodes, as stored bundles need it.
-/
theorem run_agrees {generating analyzing running : List String} {input : Option String}
    {reporting : Reporting}
    (generates : Invocation.ofWords generating = .ok ⟨0, .generate definitions output⟩)
    (analyzes : Invocation.ofWords analyzing = .ok ⟨0, .analyze output input reporting⟩)
    (runs : Invocation.ofWords running = .ok ⟨0, .run definitions input reporting⟩)
    (file : workspace.FromFile definitions) :
    (∀ source bundle place, workspace.sourceOf definitions = .ok source →
      generate source = .ok bundle → bundle.graph.size ≤ nodeLimit →
      workspace.Stores output place → workspace.Apart definitions place →
        ∃ exit stored, workspace.launch generating = (exit, stored) ∧ exit.code = 0 ∧ ∀ given,
          (stored.reopened given).launch analyzing = (stored.reopened given).launch running ∧
          ((isStandardInput (input.getD standardInput) = false →
              workspace.Apart (input.getD standardInput) place) →
            seen ((stored.reopened given).launch analyzing) =
              seen ((workspace.reopened given).launch running)) ∧
          Judges bundle reporting.strict
            ((stored.reopened given).sourceOf (input.getD standardInput))
            (seen ((stored.reopened given).launch analyzing))) ∧
    ∀ error, (workspace.sourceOf definitions >>= generate) = .error error →
      ∃ exit, exit.code = 1 ∧
        workspace.launch generating = (exit, { workspace with
          reported := workspace.reported ++ ("Error: " ++ error.message ++ "\n") }) ∧
        workspace.launch running = (exit, { workspace with
          reported := workspace.reported ++ ("Error: " ++ error.message ++ "\n") }) := by
  constructor
  · intro source bundle place read made countable stores apart
    refine ⟨_, _, launch_of_ok generates (run_generate file read made stores), rfl, ?_⟩
    intro given
    -- The files of the second process are those of a new one with the bundle among them.
    have printed : (workspace.reopened given).printed = "" := rfl
    have reported : (workspace.reopened given).reported = "" := rfl
    have fresh := agrees_of_stored printed reported analyzes runs (file.reopened given)
      ((file.sourceOf_reopened given).trans read) made countable (stores.reopened given)
      (apart.reopened given)
    exact ⟨fresh.1, fun elsewhere => fresh.2.1 fun named => (elsewhere named).reopened given,
      fresh.2.2⟩
  · intro error unmade
    exact ⟨_, rfl, launch_of_unmade file unmade generates rfl,
      launch_of_unmade file unmade runs rfl⟩

def letterSource : String := "%X S\n%L A\n<S>a\n\x7b\nA\n\x7d\n"

def desk : Workspace where
  files := [(["tmp", "work", "letters.def"], letterSource.toUTF8),
    (["tmp", "work", "text.txt"], "aba".toUTF8)]

theorem run_agrees_letters :
    (∃ exit stored, desk.launch ["generate", "letters.def", "-o", "letters.json"] =
        (exit, stored) ∧ exit.code = 0 ∧
      seen ((stored.reopened .empty).launch ["analyze", "letters.json", "text.txt", "--strict"]) =
        seen ((desk.reopened .empty).launch ["run", "letters.def", "text.txt", "--strict"])) ∧
    desk.launch ["generate", "missing.def", "-o", "letters.json"] =
      desk.launch ["run", "missing.def", "text.txt", "--strict"] := by
  have analyzes : Invocation.ofWords ["analyze", "letters.json", "text.txt", "--strict"] =
      .ok ⟨0, .analyze "letters.json" (some "text.txt") ⟨true, false⟩⟩ := by cbv
  constructor
  · have generates : Invocation.ofWords ["generate", "letters.def", "-o", "letters.json"] =
        .ok ⟨0, .generate "letters.def" "letters.json"⟩ := by cbv
    have runs : Invocation.ofWords ["run", "letters.def", "text.txt", "--strict"] =
        .ok ⟨0, .run "letters.def" (some "text.txt") ⟨true, false⟩⟩ := by cbv
    have located : desk.locate "letters.def" = .ok ["tmp", "work", "letters.def"] := rfl
    have file : desk.FromFile "letters.def" := ⟨by decide, by rw [located]; simp⟩
    have read : desk.sourceOf "letters.def" = .ok letterSource := by
      show Host.decodeText letterSource.toUTF8 = _
      exact decodeText_toUTF8 letterSource
    have stores : desk.Stores "letters.json" ["tmp", "work", "letters.json"] :=
      ⟨rfl, by decide +kernel, rfl, rfl⟩
    have apart : desk.Apart "letters.def" ["tmp", "work", "letters.json"] := by
      show ["tmp", "work", "letters.def"] ≠ ["tmp", "work", "letters.json"]
      decide
    have elsewhere : desk.Apart "text.txt" ["tmp", "work", "letters.json"] := by
      show ["tmp", "work", "text.txt"] ≠ ["tmp", "work", "letters.json"]
      decide
    have sized : ((generate letterSource).toOption.map fun bundle => bundle.graph.size) = some 4 := by
      cbv
    cases made : generate letterSource with
    | error fault =>
        rw [made] at sized
        cases sized
    | ok bundle =>
        rw [made] at sized
        have size : bundle.graph.size = 4 := Option.some.inj sized
        have countable : bundle.graph.size ≤ nodeLimit := by
          rw [size]
          decide
        rcases (run_agrees generates analyzes runs file).1 _ _ _ read made countable stores apart with
          ⟨exit, stored, generated, succeeds, agrees⟩
        exact ⟨exit, stored, generated, succeeds, (agrees .empty).2.1 fun _ => elsewhere⟩
  · have generates : Invocation.ofWords ["generate", "missing.def", "-o", "letters.json"] =
        .ok ⟨0, .generate "missing.def" "letters.json"⟩ := by cbv
    have runs : Invocation.ofWords ["run", "missing.def", "text.txt", "--strict"] =
        .ok ⟨0, .run "missing.def" (some "text.txt") ⟨true, false⟩⟩ := by cbv
    have located : desk.locate "missing.def" = .ok ["tmp", "work", "missing.def"] := rfl
    have file : desk.FromFile "missing.def" := ⟨by decide, by rw [located]; simp⟩
    have unmade : (desk.sourceOf "missing.def" >>= generate) =
        .error (.file .notFound) := rfl
    rcases (run_agrees generates analyzes runs file).2 _ unmade with ⟨exit, -, generated, ran⟩
    rw [generated, ran]

end Workspace

end MaximalMunch
