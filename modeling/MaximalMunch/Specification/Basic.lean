import MaximalMunch.Action
import MaximalMunch.Definitions.Table
import MaximalMunch.Pattern.Error

/-!
A lexer specification as it is written down, and what can be wrong with it.
-/

namespace MaximalMunch

structure RuleSpec where
  state : String
  pattern : String
  /-- A lexical unit, or the mark for none. -/
  unit : String
  actions : List Action
  line : Nat
  deriving DecidableEq, Repr

structure Specification where
  definitions : DefinitionTable := {}
  /-- The line of every declaration, also of names declared again. -/
  definitionLines : List (String × Nat) := []
  states : List String := []
  units : List String := []
  rules : List RuleSpec := []
  deriving DecidableEq, Repr

def Specification.startState (specification : Specification) : String :=
  specification.states.headD ""

inductive Header
  | states
  | units
  deriving DecidableEq, Repr

def Header.keyword : Header → String
  | .states => "%X"
  | .units => "%L"

def Header.description : Header → String
  | .states => "`%X` state declaration"
  | .units => "`%L` lexical units"

inductive SpecificationFault
  | missingHeader (header : Header)
  | malformedDefinition
  | expectedRule
  | unterminatedRule
  | badAction (fault : ActionFault)
  | unknownState (name : String)
  | unknownUnit (name : String)
  | noStates
  | badPattern (fault : PatternError)
  deriving DecidableEq, Repr

def SpecificationFault.message : SpecificationFault → String
  | .missingHeader header => "expected " ++ header.description
  | .malformedDefinition => "malformed regular definition"
  | .expectedRule => "expected a rule header `<State>pattern`"
  | .unterminatedRule => "rule block is not terminated"
  | .badAction fault => fault.message
  | .unknownState name => "unknown lexer state `" ++ name ++ "`"
  | .unknownUnit name => "unknown lexical unit `" ++ name ++ "`"
  | .noStates => "no lexer states declared"
  | .badPattern fault => fault.message

structure SpecificationError where
  line : Nat
  fault : SpecificationFault
  deriving DecidableEq, Repr

def SpecificationError.message (error : SpecificationError) : String :=
  "line " ++ toString error.line ++ ": " ++ error.fault.message

end MaximalMunch
