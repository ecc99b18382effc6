import MaximalMunch.Proofs.GraphPaths
import MaximalMunch.Proofs.PatternLanguage

/-!
The fragment laid out for a pattern spells exactly the words of the pattern's language between
its ends. Everything new stays in a block of its own: no edge leaves the block, none of the older
nodes gets an edge, and the accept node has no edge until a surrounding pattern links it.
-/

namespace MaximalMunch

namespace Graph

open scoped Computability

def Added (before after : Graph) (id : Nat) : Prop := before.size ≤ id ∧ id < after.size

/-- Growing keeps the edges of all nodes but those that it goes on from. -/
structure Grows (before after : Graph) (extended : Nat → Prop) : Prop where
  definitions : after.definitions = before.definitions
  size_le : before.size ≤ after.size
  kept : ∀ source label target, source < before.size → ¬ extended source →
    (after.Edge source label target ↔ before.Edge source label target)

structure Lays (before after : Graph) (fragment : Fragment) (language : Language Char) :
    Prop where
  grows : Grows before after fun _ => False
  confined : ∀ source label target, before.size ≤ source → after.Edge source label target →
    Added before after target
  entry : Added before after fragment.entry
  accept : Added before after fragment.accept
  distinct : fragment.entry ≠ fragment.accept
  final : ∀ label target, ¬ after.Edge fragment.accept label target
  spelled : ∀ word, after.Path fragment.entry word fragment.accept ↔ word ∈ language

variable {before after : Graph} {language : Language Char}

theorem lays_edge {label : Option Char}
    (edges : ∀ source other target, after.Edge source other target ↔
      before.Edge source other target ∨
        source = before.size ∧ other = label ∧ target = before.size + 1)
    (size : after.size = before.size + 2) (definitions : after.definitions = before.definitions) :
    Lays before after ⟨before.size, before.size + 1⟩ {label.toList} := by
  have edge_of_new : ∀ source other target, before.size ≤ source →
      after.Edge source other target →
        source = before.size ∧ other = label ∧ target = before.size + 1 := by
    intro source other target new edge
    rcases (edges _ _ _).mp edge with old | link
    · have := old.inside
      omega
    · exact link
  have final : ∀ other target, ¬ after.Edge (before.size + 1) other target := by
    intro other target edge
    have := (edge_of_new _ _ _ (by omega) edge).1
    omega
  refine ⟨⟨definitions, by omega, ?_⟩, ?_, ⟨?_, ?_⟩, ⟨?_, ?_⟩, ?_, final, ?_⟩
  · intro source other target old _
    rw [edges]
    constructor
    · intro either
      rcases either with edge | ⟨rfl, -, -⟩
      · exact edge
      · omega
    · exact .inl
  · intro source other target new edge
    rcases edge_of_new _ _ _ new edge with ⟨-, -, rfl⟩
    exact ⟨by omega, by omega⟩
  · simp
  · simp [size]
  · simp
  · simp [size]
  · simp
  · intro word
    show _ ↔ word = label.toList
    constructor
    · intro path
      rcases path.head (Nat.ne_of_lt (Nat.lt_succ_self _)) with ⟨_, _, _, rfl, edge, later⟩
      rcases edge_of_new _ _ _ (Nat.le_refl _) edge with ⟨-, rfl, rfl⟩
      rcases later.eq_of_final final with ⟨-, rfl⟩
      simp
    · intro same
      subst same
      exact .edge ((edges _ _ _).mpr (.inr ⟨rfl, rfl, rfl⟩))

theorem append_mem_kstar {front back : List Char} (first : front ∈ language)
    (later : back ∈ language∗) : front ++ back ∈ language∗ := by
  rw [← Language.one_add_self_mul_kstar_eq_kstar]
  exact .inr (Language.append_mem_mul first later)

structure Loops (middle after : Graph) (inner : Fragment) : Prop where
  definitions : after.definitions = middle.definitions
  size : after.size = middle.size + 2
  edges : ∀ source label target, after.Edge source label target ↔
    middle.Edge source label target ∨ label = none ∧
      (source = middle.size ∨ source = inner.accept) ∧
      (target = inner.entry ∨ target = middle.size + 1)

namespace Loops

variable {middle : Graph} {inner : Fragment}

theorem final (loop : Loops middle after inner) (laid : Lays before middle inner language) :
    ∀ label target, ¬ after.Edge (middle.size + 1) label target := by
  intro label target edge
  have acceptInside := laid.accept.2
  rcases (loop.edges _ _ _).mp edge with old | ⟨-, same | same, -⟩
  · have := old.inside
    omega
  · omega
  · omega

theorem link {source target : Nat} (loop : Loops middle after inner)
    (origin : source = middle.size ∨ source = inner.accept)
    (goal : target = inner.entry ∨ target = middle.size + 1) : after.Path source [] target := by
  have edge : after.Edge source none target := (loop.edges _ _ _).mpr (.inr ⟨rfl, origin, goal⟩)
  exact .edge edge

/-- From inside the fragment, what is left of the round under way comes before whole rounds. -/
theorem rounds {source target : Nat} {word : List Char} (loop : Loops middle after inner)
    (laid : Lays before middle inner language) (path : after.Path source word target)
    (outside : target = middle.size + 1) (inside : Added before middle source) :
    ∃ front back, word = front ++ back ∧ middle.Path source front inner.accept ∧
      back ∈ language∗ := by
  induction path with
  | here id =>
      have := inside.2
      omega
  | @step source next target label word edge later ih =>
      -- An edge of the fragment, the link to another round, or the link out of the loop.
      rcases (loop.edges _ _ _).mp edge with old | ⟨rfl, origin, rfl | rfl⟩
      · obtain ⟨front, back, rfl, path, member⟩ :=
          ih outside (laid.confined _ _ _ inside.1 old)
        exact ⟨label.toList ++ front, back, by simp, .step old path, member⟩
      · rcases ih outside laid.entry with ⟨front, back, rfl, path, member⟩
        have again := append_mem_kstar ((laid.spelled front).mp path) member
        have notStart : source ≠ middle.size := Nat.ne_of_lt inside.2
        rcases origin.resolve_left notStart with rfl
        exact ⟨[], front ++ back, rfl, .here _, again⟩
      · have notStart : source ≠ middle.size := Nat.ne_of_lt inside.2
        rcases origin.resolve_left notStart with rfl
        rcases later.eq_of_final (loop.final laid) with ⟨-, rfl⟩
        exact ⟨[], [], rfl, .here _, Language.nil_mem_kstar _⟩

theorem path_of_words (loop : Loops middle after inner) (laid : Lays before middle inner language)
    (words : List (List Char)) (members : ∀ word ∈ words, word ∈ language) {source : Nat}
    (origin : source = middle.size ∨ source = inner.accept) :
    after.Path source words.flatten (middle.size + 1) := by
  induction words generalizing source with
  | nil => exact loop.link origin (.inr rfl)
  | cons word words ih =>
      have round : middle.Path inner.entry word inner.accept :=
        (laid.spelled word).mpr (members word List.mem_cons_self)
      have lifted : after.Path inner.entry word inner.accept :=
        round.mono fun _ _ _ edge => (loop.edges _ _ _).mpr (.inl edge)
      have rest := ih (fun other later => members other (List.mem_cons_of_mem _ later)) (.inr rfl)
      exact (loop.link origin (.inl rfl)).trans (lifted.trans rest)

theorem lays (loop : Loops middle after inner) (laid : Lays before middle inner language) :
    Lays before after ⟨middle.size, middle.size + 1⟩ language∗ := by
  have grown := laid.grows.size_le
  have size := loop.size
  refine ⟨⟨loop.definitions.trans laid.grows.definitions, by omega, ?_⟩, ?_,
    ⟨grown, by simp [size]⟩, ⟨Nat.le_succ_of_le grown, by simp [size]⟩, by simp,
    loop.final laid, ?_⟩
  · intro source label target old _
    rw [loop.edges, laid.grows.kept _ _ _ old id]
    constructor
    · intro either
      rcases either with edge | ⟨-, rfl | rfl, -⟩
      · exact edge
      · omega
      · exact absurd laid.accept.1 (Nat.not_le_of_lt old)
    · exact .inl
  · intro source label target new edge
    rcases (loop.edges _ _ _).mp edge with old | ⟨-, -, rfl | rfl⟩
    · rcases laid.confined _ _ _ new old with ⟨low, high⟩
      exact ⟨low, by omega⟩
    · rcases laid.entry with ⟨low, high⟩
      exact ⟨low, by omega⟩
    · exact ⟨by omega, by omega⟩
  · intro word
    constructor
    · intro path
      obtain ⟨label, next, rest, rfl, edge, later⟩ :=
        path.head (Nat.ne_of_lt (Nat.lt_succ_self middle.size))
      rcases (loop.edges _ _ _).mp edge with old | ⟨rfl, -, rfl | rfl⟩
      · exact absurd old.inside (Nat.lt_irrefl _)
      · rcases loop.rounds laid later rfl laid.entry with ⟨front, back, rfl, path, member⟩
        show front ++ back ∈ language∗
        exact append_mem_kstar ((laid.spelled front).mp path) member
      · rcases later.eq_of_final (loop.final laid) with ⟨-, rfl⟩
        exact Language.nil_mem_kstar _
    · intro rounds
      rcases rounds with ⟨words, rfl, members⟩
      exact loop.path_of_words laid words members (.inl rfl)

end Loops

/-- A chain of parts behind the node `first`, which had no edge before. -/
structure Chains (before after : Graph) (first last : Nat) (language : Language Char) :
    Prop where
  grows : Grows before after fun source => source = first
  confined : ∀ source label target, source = first ∨ before.size ≤ source →
    after.Edge source label target → Added before after target
  reached : last = first ∨ Added before after last
  final : ∀ label target, ¬ after.Edge last label target
  spelled : ∀ word, after.Path first word last ↔ word ∈ language

theorem chains_nil {first : Nat} (inside : first < before.size)
    (bare : ∀ label target, ¬ before.Edge first label target) :
    Chains before before first first 1 := by
  refine ⟨⟨rfl, Nat.le_refl _, fun _ _ _ _ _ => Iff.rfl⟩, ?_, .inl rfl, bare, ?_⟩
  · rintro source label target (rfl | outside) edge
    · exact absurd edge (bare _ _)
    · exact absurd edge.inside (Nat.not_lt_of_ge outside)
  · intro word
    rw [Language.mem_one]
    constructor
    · intro path
      exact (path.eq_of_final bare).2
    · intro same
      subst same
      exact .here first

section Link

-- A part is laid out behind `first`, and a chain behind the part's end.

variable {middle : Graph} {first last : Nat} {part : Fragment} {rest : Language Char}

theorem Chains.size_le_middle
    (chain : Chains (middle.addEpsilon first part.entry) after part.accept last rest) :
    middle.size ≤ after.size := by
  simpa using chain.grows.size_le

theorem Chains.last_place
    (chain : Chains (middle.addEpsilon first part.entry) after part.accept last rest) :
    last = part.accept ∨ Added middle after last := by
  simpa [Added] using chain.reached

variable (inside : first < before.size) (laid : Lays before middle part language)

include inside laid

theorem Lays.edge_linked (source : Nat) (label : Option Char) (target : Nat) :
    (middle.addEpsilon first part.entry).Edge source label target ↔
      middle.Edge source label target ∨ source = first ∧ label = none ∧ target = part.entry :=
  edge_addEpsilon (Nat.lt_of_lt_of_le inside laid.grows.size_le)

variable (chain : Chains (middle.addEpsilon first part.entry) after part.accept last rest)

include chain

theorem Chains.edge_old {source : Nat} (old : source < before.size) (label : Option Char)
    (target : Nat) : after.Edge source label target ↔
      before.Edge source label target ∨ source = first ∧ label = none ∧ target = part.entry := by
  have grown := laid.grows.size_le
  have low := laid.accept.1
  rw [chain.grows.kept _ _ _ (by simp; omega) (by omega),
    laid.edge_linked inside, laid.grows.kept _ _ _ old id]

theorem Chains.edge_part {source : Nat} (added : Added before middle source)
    (apart : source ≠ part.accept) (label : Option Char) (target : Nat) :
    after.Edge source label target ↔ middle.Edge source label target := by
  have notFirst : source ≠ first := Nat.ne_of_gt (Nat.lt_of_lt_of_le inside added.1)
  rw [chain.grows.kept _ _ _ (by simpa using added.2) apart,
    laid.edge_linked inside]
  simp [notFirst]

theorem Chains.edge_of_middle {source target : Nat} {label : Option Char}
    (edge : middle.Edge source label target) : after.Edge source label target := by
  rcases Nat.lt_or_ge source before.size with old | new
  · have kept := (laid.grows.kept _ _ _ old id).mp edge
    exact (chain.edge_old inside laid old label target).mpr (.inl kept)
  · by_cases ending : source = part.accept
    · subst ending
      exact absurd edge (laid.final _ _)
    · exact (chain.edge_part inside laid ⟨new, edge.inside⟩ ending label target).mpr edge

theorem Chains.path_part {source : Nat} {word : List Char} (path : after.Path source word last)
    (added : Added before middle source) : ∃ front back, word = front ++ back ∧
      middle.Path source front part.accept ∧ after.Path part.accept back last := by
  refine path.leave (fun source label target added apart edge => ?_) added fun within => ?_
  · have kept := (chain.edge_part inside laid added apart label target).mp edge
    exact ⟨kept, laid.confined _ _ _ added.1 kept⟩
  · rcases chain.last_place with same | beyond
    · exact same
    · exact absurd within.2 (Nat.not_lt_of_ge beyond.1)

theorem Chains.confined_link (bare : ∀ label target, ¬ before.Edge first label target)
    {source target : Nat} {label : Option Char} (new : source = first ∨ before.size ≤ source)
    (edge : after.Edge source label target) : Added before after target := by
  have grown := laid.grows.size_le
  have beyond := chain.size_le_middle
  rcases new with rfl | new
  · rcases (chain.edge_old inside laid inside label target).mp edge with old | ⟨-, -, rfl⟩
    · exact absurd old (bare _ _)
    · exact ⟨laid.entry.1, Nat.lt_of_lt_of_le laid.entry.2 beyond⟩
  · by_cases within : source < middle.size ∧ source ≠ part.accept
    · have kept := (chain.edge_part inside laid ⟨new, within.1⟩ within.2 label target).mp edge
      rcases laid.confined _ _ _ new kept with ⟨low, high⟩
      exact ⟨low, Nat.lt_of_lt_of_le high beyond⟩
    · have later : source = part.accept ∨ middle.size ≤ source := by omega
      have added := chain.confined source label target (by simpa using later) edge
      have low : middle.size ≤ target := by simpa using added.1
      exact ⟨Nat.le_trans grown low, added.2⟩

/-- Linking a part behind `first` and a chain behind the part's end makes one chain. -/
theorem chains_cons (bare : ∀ label target, ¬ before.Edge first label target) :
    Chains before after first last (language * rest) := by
  have grown := laid.grows.size_le
  have beyond := chain.size_le_middle
  have apart : first ≠ last := by
    intro same
    rcases chain.last_place with accept | added
    · have low := laid.accept.1
      omega
    · have low := added.1
      omega
  refine ⟨⟨?_, Nat.le_trans grown beyond, ?_⟩, ?_, .inr ?_, chain.final, ?_⟩
  · exact chain.grows.definitions.trans laid.grows.definitions
  · intro source label target old notFirst
    rw [chain.edge_old inside laid old]
    simp [notFirst]
  · intro source label target new edge
    exact chain.confined_link inside laid bare new edge
  · rcases chain.last_place with rfl | ⟨low, high⟩
    · exact ⟨laid.accept.1, Nat.lt_of_lt_of_le laid.accept.2 beyond⟩
    · exact ⟨Nat.le_trans grown low, high⟩
  · intro word
    rw [Language.mem_mul]
    constructor
    · intro path
      rcases path.head apart with ⟨label, next, tail, rfl, edge, later⟩
      rcases (chain.edge_old inside laid inside label next).mp edge with old | ⟨-, rfl, rfl⟩
      · exact absurd old (bare _ _)
      · rcases chain.path_part inside laid later laid.entry with ⟨front, back, rfl, part, chained⟩
        exact ⟨front, (laid.spelled front).mp part, back, (chain.spelled back).mp chained, rfl⟩
    · intro split
      rcases split with ⟨front, first, back, second, rfl⟩
      have link : after.Edge _ none part.entry :=
        (chain.edge_old inside laid inside none part.entry).mpr (.inr ⟨rfl, rfl, rfl⟩)
      have part : after.Path part.entry front part.accept := ((laid.spelled front).mpr first).mono
        fun _ _ _ edge => chain.edge_of_middle inside laid edge
      exact (Path.edge link).trans (part.trans ((chain.spelled back).mpr second))

end Link

section Ends

-- A chain is laid out behind the first of two fresh nodes, and its end is linked to the second.

variable {linked : Graph} {last : Nat}
  (chain : Chains before.addEnds.1 linked before.size last language)

include chain

theorem Chains.second_bare (label : Option Char) (target : Nat) :
    ¬ linked.Edge (before.size + 1) label target := by
  have size := size_addEnds before
  intro edge
  rw [chain.grows.kept _ _ _ (by omega) (by omega), edge_addEnds] at edge
  exact absurd edge.inside (by omega)

theorem Chains.last_apart : before.size ≤ last ∧ last ≠ before.size + 1 := by
  have size := size_addEnds before
  rcases chain.reached with same | added
  · omega
  · have low := added.1
    omega

theorem Chains.last_inside : last < linked.size := by
  have size := size_addEnds before
  have grown := chain.grows.size_le
  obtain same | added := chain.reached
  · omega
  · exact added.2

theorem Chains.confined_ends {source target : Nat} {label : Option Char}
    (new : before.size ≤ source) (edge : linked.Edge source label target) :
    before.size + 2 ≤ target ∧ target < linked.size := by
  have size := size_addEnds before
  have notSecond : source ≠ before.size + 1 := by
    intro second
    rw [second] at edge
    exact chain.second_bare label target edge
  rcases chain.confined source label target (by omega) edge with ⟨low, high⟩
  exact ⟨by omega, high⟩

variable (edges : ∀ source label target, after.Edge source label target ↔
    linked.Edge source label target ∨
      source = last ∧ label = none ∧ target = before.size + 1)

include edges

theorem Chains.final_ends (label : Option Char) (target : Nat) :
    ¬ after.Edge (before.size + 1) label target := by
  intro edge
  rcases (edges _ _ _).mp edge with old | link
  · exact chain.second_bare label target old
  · exact chain.last_apart.2 link.1.symm

theorem Chains.path_ends (word : List Char) :
    after.Path before.size word (before.size + 1) ↔ word ∈ language := by
  rw [← chain.spelled]
  have stays : ∀ source label target, before.size ≤ source ∧ source ≠ before.size + 1 →
      source ≠ last → after.Edge source label target →
        linked.Edge source label target ∧ before.size ≤ target ∧ target ≠ before.size + 1 := by
    intro source label target inside apart edge
    rcases (edges _ _ _).mp edge with old | link
    · have place := chain.confined_ends inside.1 old
      exact ⟨old, by omega, by omega⟩
    · exact absurd link.1 apart
  constructor
  · intro path
    have outside : before.size ≤ before.size + 1 ∧ before.size + 1 ≠ before.size + 1 →
        before.size + 1 = last := fun block => absurd rfl block.2
    rcases Path.leave stays path ⟨Nat.le_refl _, Nat.ne_of_lt (Nat.lt_succ_self _)⟩ outside with
      ⟨front, back, rfl, within, beyond⟩
    rcases beyond.head chain.last_apart.2 with ⟨label, next, tail, rfl, edge, later⟩
    rcases (edges _ _ _).mp edge with old | ⟨-, rfl, rfl⟩
    · exact absurd old (chain.final _ _)
    · rcases later.eq_of_final (chain.final_ends edges) with ⟨-, rfl⟩
      simpa using within
  · intro path
    have lifted : after.Path before.size word last :=
      path.mono fun _ _ _ edge => (edges _ _ _).mpr (.inl edge)
    have link : after.Edge last none (before.size + 1) :=
      (edges _ _ _).mpr (.inr ⟨rfl, rfl, rfl⟩)
    simpa using lifted.trans (.edge link)

theorem lays_chain (definitions : after.definitions = linked.definitions)
    (size : after.size = linked.size) :
    Lays before after ⟨before.size, before.size + 1⟩ language := by
  have sizeEnds := size_addEnds before
  have grown := chain.grows.size_le
  have apart := chain.last_apart
  refine ⟨⟨definitions.trans chain.grows.definitions, by omega, ?_⟩, ?_,
    ⟨Nat.le_refl _, by show before.size < after.size; omega⟩,
    ⟨Nat.le_succ _, by show before.size + 1 < after.size; omega⟩, by simp,
    chain.final_ends edges, chain.path_ends edges⟩
  · intro source label target old _
    rw [edges, chain.grows.kept _ _ _ (by omega) (by omega), edge_addEnds]
    constructor
    · intro either
      rcases either with edge | link
      · exact edge
      · omega
    · exact .inl
  · intro source label target new edge
    rcases (edges _ _ _).mp edge with old | ⟨-, -, rfl⟩
    · have place := chain.confined_ends new old
      exact ⟨by omega, by omega⟩
    · exact ⟨by omega, by omega⟩

end Ends

structure Forkable (graph : Graph) (ends : Fragment) : Prop where
  entry : ends.entry < graph.size
  accept : ends.accept < graph.size
  distinct : ends.entry ≠ ends.accept
  final : ∀ label target, ¬ graph.Edge ends.accept label target
  branches : ∀ label target, graph.Edge ends.entry label target → target < graph.size

structure Branches (before after : Graph) (ends : Fragment) (language : Language Char) :
    Prop where
  grows : Grows before after fun source => source = ends.entry
  confined : ∀ source label target, before.size ≤ source → after.Edge source label target →
    Added before after target ∨ target = ends.accept
  extended : ∀ label target, before.Edge ends.entry label target →
    after.Edge ends.entry label target
  forked : ∀ label target, after.Edge ends.entry label target →
    before.Edge ends.entry label target ∨ label = none ∧ Added before after target
  spelled : ∀ word, (∃ target, before.size ≤ target ∧ after.Edge ends.entry none target ∧
    after.Path target word ends.accept) ↔ word ∈ language

theorem Branches.final {ends : Fragment} (branches : Branches before after ends language)
    (fork : Forkable before ends) (label : Option Char) (target : Nat) :
    ¬ after.Edge ends.accept label target := by
  rw [branches.grows.kept _ _ _ fork.accept fork.distinct.symm]
  exact fork.final label target

theorem branches_nil {ends : Fragment} (fork : Forkable before ends) :
    Branches before before ends 0 := by
  refine ⟨⟨rfl, Nat.le_refl _, fun _ _ _ _ _ => Iff.rfl⟩, ?_, fun _ _ => id,
    fun _ _ => .inl, ?_⟩
  · intro source label target outside edge
    exact absurd edge.inside (Nat.not_lt_of_ge outside)
  · intro word
    constructor
    · intro branch
      rcases branch with ⟨target, outside, edge, -⟩
      exact absurd (fork.branches _ _ edge) (Nat.not_lt_of_ge outside)
    · exact fun member => absurd member (Language.notMem_zero word)

section Fork

-- A part is laid out between `ends`, and other alternatives beside it.

variable {middle linked : Graph} {ends part : Fragment} {rest : Language Char}

/-- `linked` is `middle` with the part linked between `ends`. -/
structure LinksPart (middle linked : Graph) (ends part : Fragment) : Prop where
  definitions : linked.definitions = middle.definitions
  size : linked.size = middle.size
  edges : ∀ source label target, linked.Edge source label target ↔
    middle.Edge source label target ∨ label = none ∧
      (source = ends.entry ∧ target = part.entry ∨ source = part.accept ∧ target = ends.accept)

variable (links : LinksPart middle linked ends part) (laid : Lays before middle part language)

include links

theorem LinksPart.edge_part (fork : Forkable before ends) {source : Nat}
    (added : Added before middle source) (apart : source ≠ part.accept) (label : Option Char)
    (target : Nat) : linked.Edge source label target ↔ middle.Edge source label target := by
  have notEntry : source ≠ ends.entry :=
    Nat.ne_of_gt (Nat.lt_of_lt_of_le fork.entry added.1)
  rw [links.edges]
  simp [apart, notEntry]

include laid

theorem LinksPart.edge_old {source : Nat} (old : source < before.size) (label : Option Char)
    (target : Nat) : linked.Edge source label target ↔
      before.Edge source label target ∨
        source = ends.entry ∧ label = none ∧ target = part.entry := by
  have low := laid.accept.1
  have apart : source ≠ part.accept := by omega
  rw [links.edges, laid.grows.kept _ _ _ old id]
  simp [apart, and_left_comm]

variable (fork : Forkable before ends)

include fork

theorem LinksPart.edge_accept (label : Option Char) (target : Nat) :
    linked.Edge part.accept label target ↔ label = none ∧ target = ends.accept := by
  have notEntry : part.accept ≠ ends.entry :=
    Nat.ne_of_gt (Nat.lt_of_lt_of_le fork.entry laid.accept.1)
  rw [links.edges]
  simp [laid.final, notEntry]

theorem LinksPart.forkable : Forkable linked ends := by
  have grown := laid.grows.size_le
  have size := links.size
  have entry := fork.entry
  have accept := fork.accept
  refine ⟨by omega, by omega, fork.distinct, ?_, ?_⟩
  · intro label target edge
    rcases (links.edge_old laid accept label target).mp edge with old | ⟨same, -⟩
    · exact fork.final _ _ old
    · exact fork.distinct same.symm
  · intro label target edge
    rcases (links.edge_old laid entry label target).mp edge with old | ⟨-, -, rfl⟩
    · have := fork.branches _ _ old
      omega
    · have := laid.entry.2
      omega

variable (branches : Branches linked after ends rest)

include branches

omit laid in
theorem Branches.edge_part {source : Nat} (added : Added before middle source)
    (label : Option Char) (target : Nat) :
    after.Edge source label target ↔ linked.Edge source label target := by
  have notEntry : source ≠ ends.entry :=
    Nat.ne_of_gt (Nat.lt_of_lt_of_le fork.entry added.1)
  apply branches.grows.kept _ _ _ _ notEntry
  rw [links.size]
  exact added.2

theorem Branches.path_part (word : List Char) :
    after.Path part.entry word ends.accept ↔ word ∈ language := by
  rw [← laid.spelled word]
  constructor
  · intro path
    have stays : ∀ source label target, Added before middle source → source ≠ part.accept →
        after.Edge source label target → middle.Edge source label target ∧
          Added before middle target := by
      intro source label target added apart edge
      rw [branches.edge_part links fork added, links.edge_part fork added apart] at edge
      exact ⟨edge, laid.confined _ _ _ added.1 edge⟩
    have outside : Added before middle ends.accept → ends.accept = part.accept :=
      fun added => absurd fork.accept (Nat.not_lt_of_ge added.1)
    have apart : part.accept ≠ ends.accept :=
      Nat.ne_of_gt (Nat.lt_of_lt_of_le fork.accept laid.accept.1)
    rcases path.leave stays laid.entry outside with ⟨front, back, rfl, first, second⟩
    rcases second.head apart with ⟨label, next, tail, rfl, edge, later⟩
    rw [branches.edge_part links fork laid.accept, links.edge_accept laid fork] at edge
    rcases edge with ⟨rfl, rfl⟩
    rcases later.eq_of_final (branches.final (links.forkable laid fork)) with ⟨-, rfl⟩
    simpa using first
  · intro path
    have kept : ∀ source label target, Added before middle source →
        middle.Edge source label target → after.Edge source label target ∧
          Added before middle target := by
      intro source label target added edge
      have linked := (links.edges _ _ _).mpr (.inl edge)
      constructor
      · exact (branches.edge_part links fork added label target).mpr linked
      · exact laid.confined _ _ _ added.1 edge
    have lifted : after.Path part.entry word part.accept :=
      (Path.confined kept path laid.entry).1
    have link : after.Edge part.accept none ends.accept :=
      (branches.edge_part links fork laid.accept none ends.accept).mpr
        ((links.edge_accept laid fork _ _).mpr ⟨rfl, rfl⟩)
    simpa using lifted.trans (.edge link)

theorem Branches.confined_part {source target : Nat} {label : Option Char}
    (new : before.size ≤ source) (edge : after.Edge source label target) :
    Added before after target ∨ target = ends.accept := by
  have size := links.size
  have grown := laid.grows.size_le
  have beyond := branches.grows.size_le
  have notEntry : source ≠ ends.entry := Nat.ne_of_gt (Nat.lt_of_lt_of_le fork.entry new)
  rcases Nat.lt_or_ge source linked.size with within | later
  · rw [branches.grows.kept _ _ _ within notEntry, links.edges] at edge
    rcases edge with inner | ⟨-, ⟨same, -⟩ | ⟨-, rfl⟩⟩
    · rcases laid.confined _ _ _ new inner with ⟨low, high⟩
      exact .inl ⟨low, by omega⟩
    · exact absurd same notEntry
    · exact .inr rfl
  · refine (branches.confined _ _ _ later edge).imp_left fun added => ?_
    rcases added with ⟨low, high⟩
    exact ⟨by omega, high⟩

/-- Linking a part between the ends and the other alternatives beside it joins the languages. -/
theorem branches_cons : Branches before after ends (language + rest) := by
  have size := links.size
  have grown := laid.grows.size_le
  have beyond := branches.grows.size_le
  have entryInside : ends.entry < linked.size := (links.forkable laid fork).entry
  refine ⟨⟨?_, by omega, ?_⟩, ?_, ?_, ?_, ?_⟩
  · rw [branches.grows.definitions, links.definitions, laid.grows.definitions]
  · intro source label target old apart
    rw [branches.grows.kept _ _ _ (by omega) apart, links.edge_old laid old]
    simp [apart]
  · intro source label target new edge
    exact branches.confined_part links laid fork new edge
  · intro label target edge
    exact branches.extended _ _ ((links.edge_old laid fork.entry label target).mpr (.inl edge))
  · intro label target edge
    rcases branches.forked _ _ edge with linking | ⟨silent, low, high⟩
    · rcases (links.edge_old laid fork.entry label target).mp linking with old | ⟨-, silent, rfl⟩
      · exact .inl old
      · have inner := laid.entry
        exact .inr ⟨silent, inner.1, by have := inner.2; omega⟩
    · exact .inr ⟨silent, by omega, high⟩
  · intro word
    rw [Language.mem_add]
    constructor
    · intro branch
      rcases branch with ⟨target, outside, edge, path⟩
      rcases branches.forked _ _ edge with linking | ⟨-, added⟩
      · rcases (links.edge_old laid fork.entry none target).mp linking with old | ⟨-, -, rfl⟩
        · exact absurd (fork.branches _ _ old) (Nat.not_lt_of_ge outside)
        · exact .inl ((branches.path_part links laid fork word).mp path)
      · exact .inr ((branches.spelled word).mp ⟨target, added.1, edge, path⟩)
    · intro either
      rcases either with first | second
      · have linking : linked.Edge ends.entry none part.entry :=
          (links.edge_old laid fork.entry none part.entry).mpr (.inr ⟨rfl, rfl, rfl⟩)
        have path := (branches.path_part links laid fork word).mpr first
        exact ⟨part.entry, laid.entry.1, branches.extended _ _ linking, path⟩
      · rcases (branches.spelled word).mpr second with ⟨target, outside, edge, path⟩
        exact ⟨target, by omega, edge, path⟩

end Fork

theorem forkable_addEnds (graph : Graph) : Forkable graph.addEnds.1 graph.addEnds.2 := by
  have size := size_addEnds graph
  have accept := accept_addEnds graph
  refine ⟨by simp, by simp, by simp, ?_, ?_⟩
  · intro label target edge
    have old := (edge_addEnds.mp edge).inside
    omega
  · intro label target edge
    have old := (edge_addEnds.mp edge).inside
    exact absurd old (Nat.lt_irrefl _)

theorem lays_branches (branches : Branches before.addEnds.1 after before.addEnds.2 language) :
    Lays before after before.addEnds.2 language := by
  have fork := forkable_addEnds before
  have size := size_addEnds before
  have entry := entry_addEnds before
  have accept := accept_addEnds before
  have grown := branches.grows.size_le
  have final := branches.final fork
  have forked : ∀ label target, after.Edge before.addEnds.2.entry label target →
      label = none ∧ Added before.addEnds.1 after target := by
    intro label target edge
    refine (branches.forked _ _ edge).resolve_left fun old => ?_
    exact absurd (edge_addEnds.mp old).inside (Nat.lt_irrefl _)
  refine ⟨⟨branches.grows.definitions, by omega, ?_⟩, ?_, ⟨by omega, by omega⟩,
    ⟨by omega, by omega⟩, fork.distinct, final, ?_⟩
  · intro source label target old _
    rw [branches.grows.kept _ _ _ (by omega) (by omega), edge_addEnds]
  · intro source label target new edge
    rcases Nat.lt_or_ge source before.addEnds.1.size with within | later
    · by_cases first : source = before.addEnds.2.entry
      · subst first
        rcases forked _ _ edge with ⟨-, low, high⟩
        exact ⟨by omega, high⟩
      · have second : source = before.addEnds.2.accept := by omega
        subst second
        exact absurd edge (final _ _)
    · rcases branches.confined _ _ _ later edge with ⟨low, high⟩ | rfl
      · exact ⟨by omega, high⟩
      · exact ⟨by omega, by omega⟩
  · intro word
    rw [← branches.spelled]
    constructor
    · intro path
      rcases path.head fork.distinct with ⟨label, next, rest, rfl, edge, later⟩
      rcases forked _ _ edge with ⟨rfl, added⟩
      exact ⟨next, added.1, edge, later⟩
    · intro branch
      rcases branch with ⟨target, -, edge, path⟩
      exact .step edge path

theorem ends_addEnds (graph : Graph) : graph.addEnds.2 = ⟨graph.size, graph.size + 1⟩ := by
  rw [← accept_addEnds graph]
  rfl

theorem lays_symbol (graph : Graph) (char : Char) :
    Lays graph (graph.addPattern (.symbol char)).1 (graph.addPattern (.symbol char)).2
      (Pattern.symbol char).language := by
  have size := size_addEnds graph
  have inside : graph.size < graph.addEnds.1.size := by omega
  have fresh : ∀ target, ¬ graph.addEnds.1.Edge graph.size (some char) target := by
    intro target edge
    exact absurd (edge_addEnds.mp edge).inside (Nat.lt_irrefl _)
  simp only [addPattern, ends_addEnds, Pattern.language_symbol]
  have edges : ∀ source label target,
      (graph.addEnds.1.addTransition graph.size char (graph.size + 1)).Edge source label target ↔
        graph.Edge source label target ∨
          source = graph.size ∧ label = some char ∧ target = graph.size + 1 := by
    intro source label target
    rw [edge_addTransition inside fresh, edge_addEnds]
  exact lays_edge edges (by simp) (by simp)

theorem lays_nothing (graph : Graph) :
    Lays graph (graph.addPattern .nothing).1 (graph.addPattern .nothing).2
      Pattern.nothing.language := by
  have size := size_addEnds graph
  have inside : graph.size < graph.addEnds.1.size := by omega
  simp only [addPattern, ends_addEnds, Pattern.language_nothing]
  have edges : ∀ source label target,
      (graph.addEnds.1.addEpsilon graph.size (graph.size + 1)).Edge source label target ↔
        graph.Edge source label target ∨
          source = graph.size ∧ label = none ∧ target = graph.size + 1 := by
    intro source label target
    rw [edge_addEpsilon inside, edge_addEnds]
  exact lays_edge edges (by simp) (by simp)

theorem loops_addEpsilon {middle : Graph} {inner : Fragment} (accept : inner.accept < middle.size) :
    Loops middle ((((middle.addEnds.1.addEpsilon middle.size inner.entry).addEpsilon
      middle.size (middle.size + 1)).addEpsilon inner.accept inner.entry).addEpsilon
        inner.accept (middle.size + 1)) inner := by
  have size := size_addEnds middle
  refine ⟨by simp, by simp, ?_⟩
  intro source label target
  rw [edge_addEpsilon (by simp; omega), edge_addEpsilon (by simp; omega),
    edge_addEpsilon (by simp), edge_addEpsilon (by simp), edge_addEnds]
  tauto

theorem linksPart_addEpsilon {middle : Graph} {ends part : Fragment}
    (entry : ends.entry < middle.size) (accept : part.accept < middle.size) :
    LinksPart middle ((middle.addEpsilon ends.entry part.entry).addEpsilon part.accept ends.accept)
      ends part := by
  refine ⟨by simp, by simp, ?_⟩
  intro source label target
  rw [edge_addEpsilon (by simpa using accept), edge_addEpsilon entry]
  tauto

theorem lays_star {graph : Graph} {inner : Pattern}
    (laid : Lays graph (graph.addPattern inner).1 (graph.addPattern inner).2 inner.language) :
    Lays graph (graph.addPattern (.star inner)).1 (graph.addPattern (.star inner)).2
      (Pattern.star inner).language := by
  simp only [addPattern, ends_addEnds, Pattern.language_star]
  exact (loops_addEpsilon laid.accept.2).lays laid

theorem lays_sequence {graph : Graph} {items : List Pattern}
    (chain : Chains graph.addEnds.1 (graph.addEnds.1.addItems graph.size items).1 graph.size
      (graph.addEnds.1.addItems graph.size items).2 (Pattern.sequence items).language) :
    Lays graph (graph.addPattern (.sequence items)).1 (graph.addPattern (.sequence items)).2
      (Pattern.sequence items).language := by
  simp only [addPattern, ends_addEnds]
  apply lays_chain chain
  · exact fun _ _ _ => edge_addEpsilon chain.last_inside
  · simp
  · simp

theorem lays_choice {graph : Graph} {alternatives : List Pattern}
    (branches : Branches graph.addEnds.1 (graph.addEnds.1.addChoices graph.addEnds.2 alternatives)
      graph.addEnds.2 (Pattern.choice alternatives).language) :
    Lays graph (graph.addPattern (.choice alternatives)).1
      (graph.addPattern (.choice alternatives)).2 (Pattern.choice alternatives).language := by
  simp only [addPattern]
  exact lays_branches branches

mutual

theorem addPattern_lays (graph : Graph) : (pattern : Pattern) →
    Lays graph (graph.addPattern pattern).1 (graph.addPattern pattern).2 pattern.language
  | .symbol char => lays_symbol graph char
  | .nothing => lays_nothing graph
  | .star inner => lays_star (addPattern_lays graph inner)
  | .sequence items => by
      have size := size_addEnds graph
      refine lays_sequence (addItems_chains _ _ (by omega) ?_ items)
      intro label target edge
      exact absurd (edge_addEnds.mp edge).inside (Nat.lt_irrefl _)
  | .choice alternatives =>
      lays_choice (addChoices_branches _ _ (forkable_addEnds graph) alternatives)

theorem addItems_chains (graph : Graph) (first : Nat) (inside : first < graph.size)
    (bare : ∀ label target, ¬ graph.Edge first label target) : (items : List Pattern) →
    Chains graph (graph.addItems first items).1 first (graph.addItems first items).2
      (Pattern.sequence items).language
  | [] => by
      rw [Pattern.language_sequence_nil]
      exact chains_nil inside bare
  | item :: rest => by
      have laid := addPattern_lays graph item
      have apart : (graph.addPattern item).2.accept ≠ first :=
        Nat.ne_of_gt (Nat.lt_of_lt_of_le inside laid.accept.1)
      rw [Pattern.language_sequence_cons]
      refine chains_cons inside laid (addItems_chains _ _ ?_ ?_ rest) bare
      · simpa using laid.accept.2
      · intro label target edge
        rcases (laid.edge_linked inside _ _ _).mp edge with inner | ⟨same, -⟩
        · exact laid.final _ _ inner
        · exact apart same

theorem addChoices_branches (graph : Graph) (ends : Fragment) (fork : Forkable graph ends) :
    (alternatives : List Pattern) →
    Branches graph (graph.addChoices ends alternatives) ends
      (Pattern.choice alternatives).language
  | [] => by
      rw [Pattern.language_choice_nil]
      exact branches_nil fork
  | alternative :: rest => by
      have laid := addPattern_lays graph alternative
      have entryInside := fork.entry
      have grown := laid.grows.size_le
      have links := linksPart_addEpsilon (Nat.lt_of_lt_of_le entryInside grown) laid.accept.2
      rw [Pattern.language_choice_cons]
      exact branches_cons links laid fork
        (addChoices_branches _ _ (links.forkable laid fork) rest)

end

end Graph

end MaximalMunch
