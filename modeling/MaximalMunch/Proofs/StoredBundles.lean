import MaximalMunch.Command.Workspace
import MaximalMunch.Proofs.BundleRoundTrip

/-!
Bundles come back from where they were stored: from their text, and from the file that the text
was written to.
-/

namespace MaximalMunch

namespace Workspace

variable {workspace next : Workspace} {path : String} {place : Place} {content : ByteArray}

/-- A path to a file that holds what is written to it; the file need not be there yet. -/
structure Stores (workspace : Workspace) (path : String) (place : Place) : Prop where
  located : workspace.locate path = .ok place
  named : (placeNames path).getLast? ≠ some ""
  free : workspace.isDirectory place = false
  plain : Device.ofPlace? place = none

theorem write_eq_ok_iff (located : workspace.locate path = .ok place)
    (plain : Device.ofPlace? place = none) :
    workspace.write path content = .ok next ↔
      workspace.Stores path place ∧ next = workspace.put place content := by
  have led : workspace.follow path (placeNames path) = .ok place := located
  rw [write]
  simp only [bind, Except.bind]
  constructor
  · intro written
    split at written
    case isTrue => split at written <;> cases written
    case isFalse named =>
      rw [led] at written
      dsimp only at written
      split at written
      case isTrue => cases written
      case isFalse free =>
        rw [receive, plain] at written
        exact ⟨⟨located, named, eq_false_of_ne_true free, plain⟩,
          (Except.ok.inj written).symm⟩
  · rintro ⟨stores, rfl⟩
    rw [if_neg stores.named, led]
    dsimp only
    rw [stores.free, if_neg Bool.false_ne_true, receive, plain]

theorem isDirectory_put {directory : Place} (stands : workspace.isDirectory directory = true) :
    (workspace.put place content).isDirectory directory = true := by
  simp only [isDirectory, Bool.or_eq_true, List.any_eq_true] at stands ⊢
  obtain standing | ⟨file, member, below⟩ := stands
  · exact .inl standing
  · right
    by_cases same : file.1 = place
    · exact ⟨(place, content), List.mem_cons_self, same ▸ below⟩
    · have kept : file ∈ workspace.files.filter fun file => file.1 ≠ place :=
        List.mem_filter.mpr ⟨member, by simpa using same⟩
      exact ⟨file, List.mem_cons_of_mem _ kept, below⟩

theorem walk_put {start target : Place} {names : List String}
    (led : workspace.walk start names = .ok target) :
    (workspace.put place content).walk start names = .ok target := by
  induction names generalizing start with
  | nil => exact led
  | cons name names ih =>
      rw [walk] at led ⊢
      split at led
      case isTrue stands =>
        rw [if_pos (isDirectory_put stands)]
        split at led
        case isTrue => cases led
        case isFalse short =>
          rw [if_neg short]
          exact ih led
      case isFalse => cases led

theorem locate_put (located : workspace.locate path = .ok place) :
    (workspace.put place content).locate path = .ok place := by
  rw [locate, follow] at located ⊢
  split at located
  · cases located
  · exact walk_put located

theorem content?_put (plain : Device.ofPlace? place = none) :
    (workspace.put place content).content? place = some content := by
  rw [content?, plain]
  exact List.lookup_cons_self

theorem read_put (stores : workspace.Stores path place) :
    (workspace.put place content).read path = .ok content := by
  rw [read, locate_put stores.located]
  simp only [bind, Except.bind]
  rw [content?_put stores.plain]

theorem afterReading_eq_self (located : workspace.locate path = .ok place)
    (plain : Device.ofPlace? place = none) : workspace.afterReading path = workspace := by
  rw [afterReading, located]
  split
  case h_1 same =>
    cases same
    cases plain
  case h_2 => rfl

variable {bundle : Bundle}

theorem run_writeFile (written : workspace.write path content = .ok next) :
    (host.writeFile path content).run workspace = (.ok (), next) := by
  simp only [host, StateT.run_bind, StateT.run_get, pure_bind]
  rw [written]
  rfl

theorem run_saveBundle (stores : workspace.Stores path place) :
    (host.saveBundle path bundle).run.run workspace =
      (.ok (), workspace.put place bundle.encode.toUTF8) := by
  have written : (host.writeFile path bundle.encode.toUTF8).run workspace =
      (.ok (), workspace.put place bundle.encode.toUTF8) :=
    run_writeFile ((write_eq_ok_iff stores.located stores.plain).mpr ⟨stores, rfl⟩)
  simp only [Host.saveBundle, ExceptT.run_mk, StateT.run_bind]
  rw [written]
  rfl

theorem run_loadBundle :
    (host.loadBundle path).run.run workspace =
      ((workspace.read path).mapError Host.loadFault >>= Bundle.load,
        workspace.afterReading path) := by
  have opened : (liftM (host.readFile path) : ExceptT LexerError (StateM Workspace) _).run.run
      workspace = (.ok (workspace.read path), workspace.afterReading path) := rfl
  rw [Host.loadBundle, ExceptT.run_bind, StateT.run_bind, opened]
  cases workspace.read path with
  | error fault => rfl
  | ok content =>
      simp only [Except.mapError, bind, Except.bind]
      cases Bundle.load content <;> rfl

theorem run_loadBundle_put (stores : workspace.Stores path place) :
    (host.loadBundle path).run.run (workspace.put place content) =
      (Bundle.load content, workspace.put place content) := by
  have kept : (workspace.put place content).afterReading path = workspace.put place content :=
    afterReading_eq_self (locate_put stores.located) stores.plain
  rw [run_loadBundle, read_put stores, kept]
  rfl

end Workspace

namespace Bundle

theorem load_of_decode? {bytes : ByteArray} {bundle : Bundle}
    (decoded : decode? bytes = some bundle) (valid : bundle.validate = .ok bundle) :
    load bytes = .ok bundle := by
  rw [load, decoded]
  dsimp only
  rw [valid]
  rfl

/--
Storing does not change a bundle whose numbers are in range, and every bundle that was ever read
is such a bundle.
-/
theorem load_encode (bundle : Bundle) :
    (bundle.Fits →
      decode? bundle.encode.toUTF8 = some bundle ∧
      (bundle.validate = .ok bundle →
        load bundle.encode.toUTF8 = .ok bundle ∧
        ∀ (workspace : Workspace) (path : String) (place : Place), workspace.Stores path place →
          ∃ next, (Workspace.host.saveBundle path bundle).run.run workspace = (.ok (), next) ∧
            (Workspace.host.loadBundle path).run.run next = (.ok bundle, next))) ∧
    ∀ bytes, decode? bytes = some bundle →
      decode? bundle.encode.toUTF8 = some bundle ∧
      (decode? bundle.encode.toUTF8).map encode = some bundle.encode := by
  constructor
  · intro fits
    have decoded : decode? bundle.encode.toUTF8 = some bundle := decode?_of_fits fits
    refine ⟨decoded, fun valid => ?_⟩
    have loaded : load bundle.encode.toUTF8 = .ok bundle := load_of_decode? decoded valid
    refine ⟨loaded, fun workspace path place stores => ?_⟩
    refine ⟨workspace.put place bundle.encode.toUTF8, Workspace.run_saveBundle stores, ?_⟩
    rw [Workspace.run_loadBundle_put stores, loaded]
  · intro bytes read
    have decoded : decode? bundle.encode.toUTF8 = some bundle :=
      decode?_of_fits (fits_of_decode? read)
    refine ⟨decoded, ?_⟩
    rw [decoded, Option.map_some]

def escapes : Bundle where
  startState := "S\"\n"
  states := ⟨.ofList [("S\"\n", [⟨some "é\\", ⟨0, 1⟩, [.goBack 3, .suppress]⟩,
    ⟨none, ⟨0, 1⟩, [.switchState "S\"\n", .incrementLine]⟩])]⟩
  graph :=
    { nodes := #[⟨.ofList [1], .ofList [('\x01', 1), ('"', 0)]⟩, {}]
      definitions := ⟨[("Any", "😀|\t")]⟩ }

theorem load_encode_escapes :
    escapes.Fits ∧ load escapes.encode.toUTF8 = .ok escapes ∧
      ∃ next, (Workspace.host.saveBundle "lexer.json" escapes).run.run {} = (.ok (), next) ∧
        (Workspace.host.loadBundle "lexer.json").run.run next = (.ok escapes, next) := by
  have fits : escapes.Fits := by decide
  have valid : escapes.validate = .ok escapes := rfl
  have stores : ({} : Workspace).Stores "lexer.json" ["tmp", "work", "lexer.json"] :=
    ⟨rfl, by decide +kernel, rfl, rfl⟩
  obtain ⟨-, restored⟩ := (load_encode escapes).1 fits
  obtain ⟨loaded, files⟩ := restored valid
  exact ⟨fits, loaded, files _ _ _ stores⟩

end Bundle

end MaximalMunch
