import MaximalMunch.Error

/-!
Paths: names with separators between them. A path that begins with a separator starts at the
root, any other in the directory commands work in.
-/

namespace MaximalMunch

abbrev Place := List String

def workingDirectory : Place := ["tmp", "work"]

/-- Where a name leads from a directory. No way leads out of the root. -/
def Place.step (place : Place) (name : String) : Place :=
  if name = "" ∨ name = "." then place
  else if name = ".." then place.dropLast
  else place ++ [name]

def pathNames : List Char → List (List Char)
  | [] => [[]]
  | '/' :: rest => [] :: pathNames rest
  | char :: rest =>
    match pathNames rest with
    | [] => [[char]]
    | name :: later => (char :: name) :: later

def placeNames (path : String) : List String := (pathNames path.toList).map String.ofList

/-- The names before the last one. Separators at the end do not count. -/
def parentNames (names : List String) : List String :=
  (names.reverse.dropWhile (· = "")).tail.reverse

def pathStart (path : String) : Place :=
  if path.toList.head? = some '/' then [] else workingDirectory

def nameLimit : Nat := 255

def pathLimit : Nat := 4095

def pathFault? (path : String) : Option FileFault :=
  if '\x00' ∈ path.toList then some .nulInPath
  else if pathLimit < path.utf8ByteSize then some .nameTooLong
  else if path = "" then some .notFound
  else none

/-- The standard input goes by the name `-`, also if nothing but separators and dots follow. -/
def isStandardInput (path : String) : Bool :=
  match pathNames path.toList with
  | ['-'] :: later => later.all fun name => name = [] || name = ['.']
  | _ => false

end MaximalMunch
