import MaximalMunch.Rule

/-!
A bundle is a compiled lexer: the state it starts in, the rules of all states and the graph their
patterns were laid out in.
-/

namespace MaximalMunch

structure Bundle where
  startState : String
  states : StateTable
  graph : Graph
  deriving DecidableEq, Repr

inductive BundleFault
  | missingStart (state : String)
  | outsideGraph (state : String) (fragment : Fragment)
  | unknownTarget (state target : String)
  deriving DecidableEq, Repr

def BundleFault.message : BundleFault → String
  | .missingStart state => "start state `" ++ state ++ "` has no entry in the state table"
  | .outsideGraph state fragment =>
    "a rule of state `" ++ state ++ "` refers to states " ++ toString fragment.entry ++ ".." ++
      toString fragment.accept ++ " outside the graph"
  | .unknownTarget state target =>
    "a rule of state `" ++ state ++ "` switches to unknown state `" ++ target ++ "`"

namespace Bundle

def rules? (bundle : Bundle) (state : String) : Option (List Rule) := bundle.states.rules? state

def rules (bundle : Bundle) (state : String) : List Rule := (bundle.rules? state).getD []

def actionFault? (bundle : Bundle) (state : String) : Action → Option BundleFault
  | .switchState target =>
    if bundle.states.contains target then none else some (.unknownTarget state target)
  | _ => none

def ruleFault? (bundle : Bundle) (state : String) (rule : Rule) : Option BundleFault :=
  if bundle.graph.contains rule.fragment.entry && bundle.graph.contains rule.fragment.accept then
    rule.actions.findSome? (bundle.actionFault? state)
  else some (.outsideGraph state rule.fragment)

def fault? (bundle : Bundle) : Option BundleFault :=
  if bundle.states.contains bundle.startState then
    bundle.states.pairs.findSome? fun (state, rule) => bundle.ruleFault? state rule
  else some (.missingStart bundle.startState)

def validate (bundle : Bundle) : Except BundleFault Bundle :=
  match bundle.fault? with
  | none => .ok bundle
  | some fault => .error fault

end Bundle

end MaximalMunch
