import MaximalMunch.Command.Host

/-!
A host in memory: a tree of files, the standard input, and what was written so far. A directory
is there as long as some file lies below it, and a few are always there.
-/

namespace MaximalMunch

/-- Files that are not kept but lead elsewhere. -/
inductive Device
  | null
  | full
  | input
  | output
  | errors
  deriving DecidableEq, Repr

def Device.ofPlace? : Place → Option Device
  | ["dev", "null"] => some .null
  | ["dev", "full"] => some .full
  | ["dev", "stdin"] => some .input
  | ["dev", "stdout"] => some .output
  | ["dev", "stderr"] => some .errors
  | _ => none

/-- The root, what lies in it on any system, and the working directory. -/
def standingDirectories : List Place :=
  [[], ["bin"], ["dev"], ["etc"], ["home"], ["lib"], ["opt"], ["proc"], ["root"], ["run"],
    ["sbin"], ["sys"], ["tmp"], ["usr"], ["var"], workingDirectory]

structure Workspace where
  files : List (Place × ByteArray) := []
  input : ByteArray := .empty
  printed : String := ""
  reported : String := ""

namespace Workspace

def isDirectory (workspace : Workspace) (place : Place) : Bool :=
  standingDirectories.contains place ||
    workspace.files.any fun file => place.isPrefixOf file.1 && place ≠ file.1

/-- Of the devices only the standard input holds anything. -/
def content? (workspace : Workspace) (place : Place) : Option ByteArray :=
  match Device.ofPlace? place with
  | none => workspace.files.lookup place
  | some .input => some workspace.input
  | some _ => some .empty

def fault (workspace : Workspace) (place : Place) : FileFault :=
  if workspace.isDirectory place then .isADirectory
  else if (workspace.content? place).isSome then .notADirectory
  else .notFound

/-- Goes on from a place along the names of a path. Only directories lead further. -/
def walk (workspace : Workspace) (place : Place) : List String → Except FileFault Place
  | [] => .ok place
  | name :: names =>
    if workspace.isDirectory place then
      if nameLimit < name.utf8ByteSize then .error .nameTooLong
      else workspace.walk (place.step name) names
    else .error (workspace.fault place)

def follow (workspace : Workspace) (path : String) (names : List String) :
    Except FileFault Place :=
  match pathFault? path with
  | some fault => .error fault
  | none => workspace.walk (pathStart path) names

def locate (workspace : Workspace) (path : String) : Except FileFault Place :=
  workspace.follow path (placeNames path)

def read (workspace : Workspace) (path : String) : Except FileFault ByteArray := do
  let place ← workspace.locate path
  match workspace.content? place with
  | some content => .ok content
  | none => .error (workspace.fault place)

/-- What was read of the standard input is gone. -/
def afterReading (workspace : Workspace) (path : String) : Workspace :=
  match workspace.locate path with
  | .ok ["dev", "stdin"] => { workspace with input := .empty }
  | _ => workspace

def put (workspace : Workspace) (place : Place) (content : ByteArray) : Workspace :=
  { workspace with
    files := (place, content) :: workspace.files.filter fun file => file.1 ≠ place }

def print (workspace : Workspace) (text : String) : Workspace :=
  { workspace with printed := workspace.printed ++ text }

def report (workspace : Workspace) (text : String) : Workspace :=
  { workspace with reported := workspace.reported ++ text }

def receive (workspace : Workspace) (place : Place) (content : ByteArray) :
    Except FileFault Workspace :=
  match Device.ofPlace? place with
  | none => .ok (workspace.put place content)
  | some .full => .error .noSpace
  | some .output => .ok (workspace.print ((String.fromUTF8? content).getD ""))
  | some .errors => .ok (workspace.report ((String.fromUTF8? content).getD ""))
  | some _ => .ok workspace

/--
Directories are not written, and a separator at the end of a path asks for one, whatever the name
before it.
-/
def write (workspace : Workspace) (path : String) (content : ByteArray) :
    Except FileFault Workspace := do
  let names := placeNames path
  if names.getLast? = some "" then
    let parent ← workspace.follow path (parentNames names)
    .error (workspace.fault parent)
  else
    let place ← workspace.follow path names
    if workspace.isDirectory place then .error .isADirectory
    else workspace.receive place content

def ofFiles (files : List (String × ByteArray)) (input : ByteArray) : Workspace :=
  files.foldl (fun workspace (path, content) =>
    workspace.put ((placeNames path).foldl Place.step (pathStart path)) content) { input := input }

/-- Commands work on a workspace as their host; its input can be read once. -/
def host : Host (StateM Workspace) where
  readFile path := modifyGet fun workspace => (workspace.read path, workspace.afterReading path)
  writeFile path content := do
    let workspace ← get
    match workspace.write path content with
    | .ok next => set next; return .ok ()
    | .error fault => return .error fault
  readInput := modifyGet fun workspace => (workspace.input, { workspace with input := .empty })
  print text := modify (·.print text)
  report text := modify (·.report text)

end Workspace

end MaximalMunch
