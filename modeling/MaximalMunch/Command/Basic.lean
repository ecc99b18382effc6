/-!
The commands of the program.
-/

namespace MaximalMunch

structure Reporting where
  strict : Bool := false
  summary : Bool := false
  deriving DecidableEq, Repr

/-- An input that is not given is the standard input. -/
inductive Command
  | generate (definitions output : String)
  | analyze (bundle : String) (input : Option String) (reporting : Reporting)
  | run (definitions : String) (input : Option String) (reporting : Reporting)
  deriving DecidableEq, Repr

structure Invocation where
  verbosity : Nat
  command : Command
  deriving DecidableEq, Repr

inductive Refusal
  | help
  | version
  | misuse
  deriving DecidableEq, Repr

end MaximalMunch
