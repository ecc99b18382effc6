import MaximalMunch.Proofs.SimulationPaths
import MaximalMunch.Session.Scan
import Mathlib.Computability.Language

/-!
The scan gives the longest non-empty match at the head of a text, by the first rule that has it.
It is compared with the languages of the rules alone, prefix by prefix.
-/

namespace MaximalMunch

/-- No language holds a non-empty prefix of the text. -/
def Unmatched (languages : List (Language Char)) (text : List Char) : Prop :=
  ∀ length, 0 < length → length ≤ text.length → ∀ language ∈ languages,
    text.take length ∉ language

/-- The longest non-empty prefix that any language holds, with the first language to hold it. -/
structure Wins (languages : List (Language Char)) (text : List Char) (index length : Nat) :
    Prop where
  positive : 0 < length
  bounded : length ≤ text.length
  holds : ∃ language, languages[index]? = some language ∧ text.take length ∈ language
  first : ∀ earlier < index, ∀ language, languages[earlier]? = some language →
    text.take length ∉ language
  longest : ∀ other, length < other → other ≤ text.length → ∀ language ∈ languages,
    text.take other ∉ language

namespace Wins

variable {languages : List (Language Char)} {text front : List Char} {index length : Nat}

theorem not_unmatched (wins : Wins languages text index length) :
    ¬ Unmatched languages text := by
  intro unmatched
  rcases wins.holds with ⟨language, placed, member⟩
  exact unmatched length wins.positive wins.bounded language (List.mem_of_getElem? placed) member

theorem length_le {otherIndex otherLength : Nat} (wins : Wins languages text index length)
    (other : Wins languages text otherIndex otherLength) : length ≤ otherLength := by
  apply Nat.le_of_not_lt
  intro longer
  rcases wins.holds with ⟨language, placed, member⟩
  exact other.longest length longer wins.bounded language (List.mem_of_getElem? placed) member

theorem index_le {otherIndex : Nat} (wins : Wins languages text index length)
    (other : Wins languages text otherIndex length) : index ≤ otherIndex := by
  apply Nat.le_of_not_lt
  intro later
  rcases other.holds with ⟨language, placed, member⟩
  exact wins.first otherIndex later language placed member

theorem unique {otherIndex otherLength : Nat} (wins : Wins languages text index length)
    (other : Wins languages text otherIndex otherLength) :
    index = otherIndex ∧ length = otherLength := by
  have same : length = otherLength := Nat.le_antisymm (wins.length_le other) (other.length_le wins)
  subst same
  exact ⟨Nat.le_antisymm (wins.index_le other) (other.index_le wins), rfl⟩

theorem extend (wins : Wins languages front index length) {rest : List Char}
    (beyond : ∀ other, front.length < other → other ≤ (front ++ rest).length →
      ∀ language ∈ languages, (front ++ rest).take other ∉ language) :
    Wins languages (front ++ rest) index length := by
  have within : ∀ other, other ≤ front.length → (front ++ rest).take other = front.take other :=
    fun other => List.take_append_of_le_length
  have same := within length wins.bounded
  constructor
  · exact wins.positive
  · rw [List.length_append]
    exact Nat.le_add_right_of_le wins.bounded
  · rw [same]
    exact wins.holds
  · rw [same]
    exact wins.first
  · intro other longer bounded language member
    rcases Nat.lt_or_ge front.length other with outside | inside
    · exact beyond other outside bounded language member
    · rw [within other inside]
      exact wins.longest other longer inside language member

end Wins

theorem Unmatched.extend {languages : List (Language Char)} {front rest : List Char}
    (unmatched : Unmatched languages front)
    (beyond : ∀ other, front.length < other → other ≤ (front ++ rest).length →
      ∀ language ∈ languages, (front ++ rest).take other ∉ language) :
    Unmatched languages (front ++ rest) := by
  intro length positive bounded language member
  rcases Nat.lt_or_ge front.length length with outside | inside
  · exact beyond length outside bounded language member
  · rw [List.take_append_of_le_length inside]
    exact unmatched length positive inside language member

def Rule.language (graph : Graph) (rule : Rule) : Language Char :=
  {word | rule.fragment.accepts graph word = true}

def Rule.languages (graph : Graph) (rules : List Rule) : List (Language Char) :=
  rules.map (Rule.language graph)

def Rule.after (graph : Graph) (front : List Char) (rule : Rule) : Simulation :=
  (Simulation.start graph rule.fragment).run graph front

theorem Rule.mem_language {graph : Graph} {rule : Rule} {front : List Char} :
    front ∈ rule.language graph ↔ (rule.after graph front).isAccepting = true := by
  show rule.fragment.accepts graph front = true ↔ _
  rw [Fragment.accepts_eq_isAccepting_run]
  rfl

structure Contending (graph : Graph) (rules : List Rule) (front : List Char)
    (contenders : List Contender) : Prop where
  placed : ∀ contender ∈ contenders, rules[contender.index]? = some contender.rule ∧
    contender.simulation = contender.rule.after graph front
  complete : ∀ (index : Nat) (rule : Rule), rules[index]? = some rule →
    (rule.after graph front).isDead = false →
      (⟨index, rule, rule.after graph front⟩ : Contender) ∈ contenders
  ordered : contenders.Pairwise fun earlier later => earlier.index < later.index

/-- `best` is the longest match of the rules within `front`. -/
def BestWithin (graph : Graph) (rules : List Rule) (front : List Char) :
    Option Match → Prop
  | some found => rules[found.index]? = some found.rule ∧
      Wins (Rule.languages graph rules) front found.index found.length
  | none => Unmatched (Rule.languages graph rules) front

namespace Contending

variable {graph : Graph} {rules : List Rule} {front rest : List Char} {char : Char}
  {contenders : List Contender} {best : Option Match}

theorem start (graph : Graph) (rules : List Rule) :
    Contending graph rules [] (Contender.start graph rules) := by
  constructor
  · intro contender member
    rcases List.mem_map.mp member with ⟨⟨rule, index⟩, known, rfl⟩
    exact ⟨List.mem_zipIdx_iff_getElem?.mp known, rfl⟩
  · intro index rule placed _
    apply List.mem_map.mpr
    exact ⟨(rule, index), List.mem_zipIdx_iff_getElem?.mpr placed, rfl⟩
  · have indices : (rules.zipIdx.map Prod.snd).Pairwise (· < ·) := by
      rw [List.zipIdx_map_snd]
      exact List.pairwise_lt_range'
    apply List.pairwise_map.mpr
    exact List.pairwise_map.mp indices

theorem step (contending : Contending graph rules front contenders) (char : Char) :
    Contending graph rules (front ++ [char]) (Contender.survivors graph char contenders) := by
  have next : ∀ rule : Rule, (rule.after graph front).step graph char =
      rule.after graph (front ++ [char]) := by
    intro rule
    rw [Rule.after, Rule.after, Simulation.run_append]
    rfl
  constructor
  · intro contender member
    rcases List.mem_map.mp (List.mem_filter.mp member).1 with ⟨before, known, rfl⟩
    rcases contending.placed before known with ⟨placed, running⟩
    refine ⟨placed, ?_⟩
    show before.simulation.step graph char = _
    rw [running, next]
    rfl
  · intro index rule placed alive
    apply List.mem_filter.mpr
    refine ⟨List.mem_map.mpr ⟨⟨index, rule, rule.after graph front⟩, ?_, ?_⟩, ?_⟩
    · apply contending.complete index rule placed
      cases dead : (rule.after graph front).isDead with
      | false => rfl
      | true =>
          have stillDead := Simulation.isDead_step graph dead char
          rw [next, alive] at stillDead
          cases stillDead
    · rw [Contender.step, next]
    · simp [alive]
  · apply List.Pairwise.filter
    apply List.pairwise_map.mpr
    exact contending.ordered

theorem mem_of_accepts (contending : Contending graph rules front contenders) {index : Nat}
    {rule : Rule} (placed : rules[index]? = some rule)
    (accepts : (rule.after graph front).isAccepting = true) :
    (⟨index, rule, rule.after graph front⟩ : Contender) ∈ contenders := by
  apply contending.complete index rule placed
  cases dead : (rule.after graph front).isDead with
  | false => rfl
  | true =>
      rw [Simulation.not_isAccepting_of_isDead dead] at accepts
      cases accepts

theorem notMem_of_match?_eq_none (contending : Contending graph rules front contenders)
    {length : Nat} (none : Contender.match? length contenders = none) :
    ∀ language ∈ Rule.languages graph rules, front ∉ language := by
  intro language member word
  rcases List.mem_map.mp member with ⟨rule, known, rfl⟩
  rcases List.mem_iff_getElem?.mp known with ⟨index, placed⟩
  have accepts := Rule.mem_language.mp word
  have running := contending.mem_of_accepts placed accepts
  have absent := List.find?_eq_none.mp (Option.map_eq_none_iff.mp none) _ running
  exact absent accepts

theorem wins_of_match?_eq_some (contending : Contending graph rules front contenders)
    {found : Match} (nonempty : 0 < front.length)
    (matched : Contender.match? front.length contenders = some found) :
    BestWithin graph rules front (some found) := by
  rcases Option.map_eq_some_iff.mp matched with ⟨winner, search, rfl⟩
  rcases List.find?_eq_some_iff_append.mp search with ⟨accepts, before, after, split, refused⟩
  have member : winner ∈ contenders := List.mem_of_find?_eq_some search
  rcases contending.placed winner member with ⟨placed, running⟩
  refine ⟨placed, nonempty, Nat.le_refl _, ?_, ?_, ?_⟩
  · refine ⟨winner.rule.language graph, ?_, ?_⟩
    · simp [Rule.languages, placed]
    · rw [List.take_length, Rule.mem_language, ← running]
      exact accepts
  · intro earlier less language listed word
    rw [List.take_length] at word
    rw [Rule.languages, List.getElem?_map] at listed
    rcases Option.map_eq_some_iff.mp listed with ⟨rule, known, rfl⟩
    have acceptsEarlier := Rule.mem_language.mp word
    have rival := contending.mem_of_accepts known acceptsEarlier
    have ordered := contending.ordered
    rw [split] at rival ordered
    rcases List.mem_append.mp rival with ahead | behind
    · have rejected := refused _ ahead
      simp [acceptsEarlier] at rejected
    · have bounds := (List.pairwise_append.mp ordered).2.1
      rcases List.mem_cons.mp behind with same | behind
      · rw [← same] at less
        exact Nat.lt_irrefl _ less
      · have later := (List.pairwise_cons.mp bounds).1 _ behind
        exact Nat.lt_asymm less later
  · intro other longer bounded
    exact absurd bounded (Nat.not_le_of_lt longer)

theorem notMem_of_nil (contending : Contending graph rules front []) (rest : List Char) :
    ∀ language ∈ Rule.languages graph rules, front ++ rest ∉ language := by
  intro language member word
  rcases List.mem_map.mp member with ⟨rule, known, rfl⟩
  rcases List.mem_iff_getElem?.mp known with ⟨index, placed⟩
  have accepts := Rule.mem_language.mp word
  cases dead : (rule.after graph front).isDead with
  | false => exact absurd (contending.complete index rule placed dead) List.not_mem_nil
  | true =>
      have final := Simulation.isDead_run graph dead rest
      rw [Rule.after, ← Simulation.run_append] at final
      rw [Rule.after, Simulation.not_isAccepting_of_isDead final] at accepts
      cases accepts

end Contending

section Loop

variable {graph : Graph} {rules : List Rule} {front rest : List Char} {char : Char}
  {contenders : List Contender} {best : Option Match}

theorem BestWithin.extend (within : BestWithin graph rules front best)
    (beyond : ∀ other, front.length < other → other ≤ (front ++ rest).length →
      ∀ language ∈ Rule.languages graph rules, (front ++ rest).take other ∉ language) :
    BestWithin graph rules (front ++ rest) best := by
  cases best with
  | none => exact Unmatched.extend within beyond
  | some found => exact ⟨within.1, within.2.extend beyond⟩

theorem BestWithin.step (within : BestWithin graph rules front best)
    (contending : Contending graph rules (front ++ [char]) contenders) :
    BestWithin graph rules (front ++ [char])
      ((Contender.match? (front.length + 1) contenders).or best) := by
  have length : (front ++ [char]).length = front.length + 1 := by simp
  cases matched : Contender.match? (front.length + 1) contenders with
  | some found =>
      rw [← length] at matched
      have positive : 0 < (front ++ [char]).length := by omega
      exact contending.wins_of_match?_eq_some positive matched
  | none =>
      apply within.extend
      intro other longer bounded language member
      have whole : other = (front ++ [char]).length := by omega
      rw [whole, List.take_length]
      exact contending.notMem_of_match?_eq_none matched language member

theorem scanFrom_best (contending : Contending graph rules front contenders)
    (within : BestWithin graph rules front best) :
    BestWithin graph rules (front ++ rest)
      (scanFrom graph contenders front.length best rest) := by
  induction rest generalizing front contenders best with
  | nil =>
      rw [List.append_nil]
      exact within
  | cons char rest ih =>
      have next := contending.step char
      rw [scanFrom]
      by_cases ended : (Contender.survivors graph char contenders).isEmpty
      · rw [if_pos ended]
        -- All rules are dead, so the prefixes not looked at any more match nothing.
        rw [List.isEmpty_iff.mp ended] at next
        apply within.extend
        intro other longer bounded language member
        have split : (front ++ char :: rest).take other =
            (front ++ [char]) ++ rest.take (other - (front ++ [char]).length) := by
          have whole : front ++ char :: rest = (front ++ [char]) ++ rest := by simp
          rw [whole, List.take_append, List.take_of_length_le (by simp; omega)]
        rw [split]
        exact next.notMem_of_nil _ language member
      · rw [if_neg ended]
        have later := ih next (within.step next)
        have length : (front ++ [char]).length = front.length + 1 := by simp
        rw [length] at later
        simpa using later

end Loop

variable {graph : Graph} {rules : List Rule} {text : List Char}

theorem scan_best (graph : Graph) (rules : List Rule) (text : List Char) :
    BestWithin graph rules text (scan graph rules text) := by
  have nothing : BestWithin graph rules [] none := by
    intro length positive bounded
    exact absurd bounded (Nat.not_le_of_lt positive)
  exact scanFrom_best (Contending.start graph rules) nothing

theorem scan_eq_some_iff {found : Match} : scan graph rules text = some found ↔
    rules[found.index]? = some found.rule ∧
      Wins (Rule.languages graph rules) text found.index found.length := by
  have best := scan_best graph rules text
  constructor
  · intro scanned
    rw [scanned] at best
    exact best
  · intro expected
    cases scanned : scan graph rules text with
    | none =>
        rw [scanned] at best
        exact absurd best expected.2.not_unmatched
    | some other =>
        rw [scanned] at best
        rcases best.2.unique expected.2 with ⟨sameIndex, sameLength⟩
        have sameRule : other.rule = found.rule := by
          have listed := best.1
          rw [sameIndex, expected.1] at listed
          exact (Option.some.inj listed).symm
        have same : other = found := by
          cases other
          cases found
          simp only [Match.mk.injEq]
          exact ⟨sameIndex, sameRule, sameLength⟩
        rw [same]

theorem scan_eq_none_iff : scan graph rules text = none ↔
    Unmatched (Rule.languages graph rules) text := by
  have best := scan_best graph rules text
  constructor
  · intro scanned
    rw [scanned] at best
    exact best
  · intro unmatched
    cases scanned : scan graph rules text with
    | none => rfl
    | some found =>
        rw [scanned] at best
        exact absurd unmatched best.2.not_unmatched

theorem length_le_of_scan {found : Match} (scanned : scan graph rules text = some found) :
    0 < found.length ∧ found.length ≤ text.length := by
  have wins := (scan_eq_some_iff.mp scanned).2
  exact ⟨wins.positive, wins.bounded⟩

end MaximalMunch
