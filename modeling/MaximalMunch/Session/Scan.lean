import MaximalMunch.Graph.Simulation
import MaximalMunch.Rule

/-!
Finding the longest match at the head of a text. All rules run side by side; the longest
non-empty stretch that one of them accepts wins, and among rules accepting it the first.
-/

namespace MaximalMunch

structure Match where
  index : Nat
  rule : Rule
  length : Nat
  deriving DecidableEq, Repr

structure Contender where
  index : Nat
  rule : Rule
  simulation : Simulation

namespace Contender

def start (graph : Graph) (rules : List Rule) : List Contender :=
  rules.zipIdx.map fun (rule, index) => ⟨index, rule, Simulation.start graph rule.fragment⟩

def step (graph : Graph) (char : Char) (contender : Contender) : Contender :=
  { contender with simulation := contender.simulation.step graph char }

def survivors (graph : Graph) (char : Char) (contenders : List Contender) : List Contender :=
  (contenders.map (step graph char)).filter fun contender => !contender.simulation.isDead

def match? (length : Nat) (contenders : List Contender) : Option Match :=
  (contenders.find? fun contender => contender.simulation.isAccepting).map fun contender =>
    ⟨contender.index, contender.rule, length⟩

end Contender

/-- Goes on after `length` characters with `best`, the longest match among them. -/
def scanFrom (graph : Graph) (contenders : List Contender) (length : Nat) (best : Option Match) :
    List Char → Option Match
  | [] => best
  | char :: rest =>
    let left := Contender.survivors graph char contenders
    if left.isEmpty then best
    else scanFrom graph left (length + 1) ((Contender.match? (length + 1) left).or best) rest

def scan (graph : Graph) (rules : List Rule) (text : List Char) : Option Match :=
  scanFrom graph (Contender.start graph rules) 0 none text

theorem scanFrom_mem {graph : Graph} {rules : List Rule} {contenders : List Contender}
    {length : Nat} {best : Option Match} {text : List Char} {found : Match}
    (running : ∀ contender ∈ contenders, contender.rule ∈ rules)
    (earlier : ∀ candidate, best = some candidate → candidate.rule ∈ rules)
    (result : scanFrom graph contenders length best text = some found) : found.rule ∈ rules := by
  induction text generalizing contenders length best with
  | nil => exact earlier found result
  | cons char rest ih =>
    simp only [scanFrom] at result
    split at result
    · exact earlier found result
    · have alive : ∀ contender ∈ Contender.survivors graph char contenders,
          contender.rule ∈ rules := by
        intro contender member
        obtain ⟨before, known, rfl⟩ := List.mem_map.mp (List.mem_filter.mp member).1
        exact running before known
      refine ih alive (fun candidate chosen => ?_) result
      cases now : Contender.match? (length + 1) (Contender.survivors graph char contenders) with
      | none => exact earlier candidate (by simpa [now] using chosen)
      | some other =>
        have same : other = candidate := by simpa [now] using chosen
        subst same
        obtain ⟨winner, winning, rfl⟩ := Option.map_eq_some_iff.mp now
        exact alive winner (List.mem_of_find?_eq_some winning)

theorem scan_mem {graph : Graph} {rules : List Rule} {text : List Char} {found : Match}
    (result : scan graph rules text = some found) : found.rule ∈ rules := by
  refine scanFrom_mem (fun contender member => ?_) (by simp) result
  obtain ⟨⟨rule, index⟩, known, rfl⟩ := List.mem_map.mp member
  exact (List.mem_zipIdx known).2.2 ▸ List.getElem_mem _

end MaximalMunch
