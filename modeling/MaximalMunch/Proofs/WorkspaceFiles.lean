import MaximalMunch.Proofs.StoredBundles
import Mathlib.Data.List.Infix

/-!
A file that is written changes what a path leads to only where the path ends at the file or comes
through it. It makes no new directory, since it was written into one.
-/

namespace MaximalMunch

namespace Workspace

variable {workspace : Workspace} {path : String} {place directory start target : Place}
  {content : ByteArray} {names : List String}

theorem standing_above {inner outer : Place} (above : inner <+: outer)
    (stands : outer ∈ standingDirectories) : inner ∈ standingDirectories := by
  have closed : ∀ outer ∈ standingDirectories, ∀ inner ∈ outer.inits,
      inner ∈ standingDirectories := by decide
  exact closed outer stands inner ((List.mem_inits _ _).mpr above)

theorem isDirectory_iff : workspace.isDirectory directory = true ↔
    directory ∈ standingDirectories ∨
      ∃ file ∈ workspace.files, directory <+: file.1 ∧ directory ≠ file.1 := by
  simp [isDirectory]

theorem isDirectory_above {inner outer : Place} (above : inner <+: outer)
    (stands : workspace.isDirectory outer = true) : workspace.isDirectory inner = true := by
  rw [isDirectory_iff] at stands ⊢
  rcases stands with standing | ⟨file, member, below, apart⟩
  · exact .inl (standing_above above standing)
  · right
    refine ⟨file, member, above.trans below, ?_⟩
    rintro rfl
    exact apart (below.sublist.antisymm above.sublist)

theorem prefix_dropLast {inner outer : Place} (above : inner <+: outer) (apart : inner ≠ outer) :
    inner <+: outer.dropLast := by
  rcases above with ⟨rest, rfl⟩
  have more : rest ≠ [] := by
    rintro rfl
    exact apart (List.append_nil _).symm
  rw [List.dropLast_append_of_ne_nil more]
  exact List.prefix_append _ _

theorem isDirectory_step (stands : workspace.isDirectory place = true) (name : String) :
    workspace.isDirectory (place.step name) = true ∨
      workspace.isDirectory (place.step name).dropLast = true := by
  unfold Place.step
  split
  · exact .inl stands
  · split
    · exact .inl (isDirectory_above (List.dropLast_prefix place) stands)
    · right
      rw [List.dropLast_concat]
      exact stands

theorem isDirectory_of_walk
    (within : workspace.isDirectory start = true ∨ workspace.isDirectory start.dropLast = true)
    (led : workspace.walk start names = .ok target) :
    workspace.isDirectory target = true ∨ workspace.isDirectory target.dropLast = true := by
  induction names generalizing start with
  | nil =>
      cases led
      exact within
  | cons name names ih =>
      rw [walk] at led
      split at led
      case isTrue stands =>
        split at led
        case isTrue => cases led
        case isFalse => exact ih (isDirectory_step stands name) led
      case isFalse => cases led

@[simp]
theorem isDirectory_pathStart (workspace : Workspace) (path : String) :
    workspace.isDirectory (pathStart path) = true := by
  rw [isDirectory_iff, pathStart]
  left
  split
  · decide
  · decide

theorem locate_eq_ok (located : workspace.locate path = .ok place) :
    pathFault? path = none ∧ workspace.walk (pathStart path) (placeNames path) = .ok place := by
  rw [locate, follow] at located
  cases fault : pathFault? path with
  | some fault' =>
      rw [fault] at located
      cases located
  | none =>
      rw [fault] at located
      exact ⟨rfl, located⟩

theorem Stores.parent (stores : workspace.Stores path place) :
    workspace.isDirectory place.dropLast = true := by
  have led := (locate_eq_ok stores.located).2
  rcases isDirectory_of_walk (.inl (isDirectory_pathStart workspace path)) led with stands | stands
  · rw [stores.free] at stands
    cases stands
  · exact stands

theorem Stores.isDirectory_put (stores : workspace.Stores path place) (content : ByteArray)
    (directory : Place) :
    (workspace.put place content).isDirectory directory = workspace.isDirectory directory := by
  rw [Bool.eq_iff_iff]
  constructor
  · intro stands
    rcases isDirectory_iff.mp stands with standing | ⟨file, member, below, apart⟩
    · exact isDirectory_iff.mpr (.inl standing)
    · rcases List.mem_cons.mp member with rfl | kept
      · exact isDirectory_above (prefix_dropLast below apart) stores.parent
      · exact isDirectory_iff.mpr (.inr ⟨file, (List.mem_filter.mp kept).1, below, apart⟩)
  · exact Workspace.isDirectory_put

/-- Where a path ends, or where it breaks off because it leads no further. -/
def stopOf (workspace : Workspace) (place : Place) : List String → Place
  | [] => place
  | name :: names =>
    if workspace.isDirectory place then
      if nameLimit < name.utf8ByteSize then place else workspace.stopOf (place.step name) names
    else place

/-- A path that does not end at the place and does not come through it. -/
def Apart (workspace : Workspace) (path : String) (place : Place) : Prop :=
  workspace.stopOf (pathStart path) (placeNames path) ≠ place

theorem stopOf_of_walk (led : workspace.walk start names = .ok target) :
    workspace.stopOf start names = target := by
  induction names generalizing start with
  | nil => exact Except.ok.inj led
  | cons name names ih =>
      rw [walk] at led
      rw [stopOf]
      split at led
      case isTrue stands =>
        split at led
        case isTrue => cases led
        case isFalse short =>
          rw [if_pos stands, if_neg short]
          exact ih led
      case isFalse => cases led

theorem lookup_cons_of_ne {files : List (Place × ByteArray)} {other : Place}
    (apart : other ≠ place) : ((place, content) :: files).lookup other = files.lookup other := by
  rw [List.lookup_cons, beq_false_of_ne apart]

theorem lookup_filter_ne {files : List (Place × ByteArray)} {other : Place} (apart : other ≠ place) :
    (files.filter fun file => file.1 ≠ place).lookup other = files.lookup other := by
  induction files with
  | nil => rfl
  | cons file files ih =>
      rcases file with ⟨name, content⟩
      rw [List.filter_cons]
      by_cases gone : name = place
      · have missed : other ≠ name := gone ▸ apart
        rw [if_neg (by simpa using gone), ih, lookup_cons_of_ne missed]
      · rw [if_pos (by simpa using gone), List.lookup_cons, List.lookup_cons, ih]

theorem content?_put_of_ne {other : Place} (apart : other ≠ place) :
    (workspace.put place content).content? other = workspace.content? other := by
  have kept : (workspace.put place content).files.lookup other = workspace.files.lookup other :=
    (lookup_cons_of_ne apart).trans (lookup_filter_ne apart)
  rw [content?, content?, kept]
  rfl

namespace Stores

variable {file : String} (stores : workspace.Stores file place) (content : ByteArray)

include stores

theorem fault_put {other : Place} (apart : other ≠ place) :
    (workspace.put place content).fault other = workspace.fault other := by
  rw [fault, fault, stores.isDirectory_put, content?_put_of_ne apart]

theorem walk_put (apart : workspace.stopOf start names ≠ place) :
    (workspace.put place content).walk start names = workspace.walk start names := by
  induction names generalizing start with
  | nil => rfl
  | cons name names ih =>
      rw [stopOf] at apart
      rw [walk, walk, stores.isDirectory_put]
      split
      case isTrue stands =>
        rw [if_pos stands] at apart
        split
        case isTrue => rfl
        case isFalse short =>
          rw [if_neg short] at apart
          exact ih apart
      case isFalse astray =>
        rw [if_neg astray] at apart
        rw [stores.fault_put content apart]

theorem locate_put (apart : workspace.Apart path place) :
    (workspace.put place content).locate path = workspace.locate path := by
  rw [locate, locate, follow, follow, stores.walk_put content apart]

theorem read_put (apart : workspace.Apart path place) :
    (workspace.put place content).read path = workspace.read path := by
  rw [read, read, stores.locate_put content apart]
  cases located : workspace.locate path with
  | error fault => rfl
  | ok other =>
      have elsewhere : other ≠ place := by
        rintro rfl
        exact apart (stopOf_of_walk (locate_eq_ok located).2)
      simp only [bind, Except.bind]
      rw [content?_put_of_ne elsewhere, stores.fault_put content elsewhere]

end Stores

end Workspace

end MaximalMunch
