import MaximalMunch.Proofs.GraphEdits

/-!
What holds of a graph that many patterns share, between any two of the changes that their
compilations make to it: every edge joins two nodes of one compilation, and only epsilon edges
share their source.
-/

namespace MaximalMunch

namespace Graph

variable {low : Nat} {graph middle after : Graph} {edit : Edit} {front back : List Edit}
  {source target : Nat} {label : Option Char}

structure WellWired (graph : Graph) : Prop where
  closed : ∀ source label target, graph.Edge source label target → target < graph.size
  alone : ∀ source char target, graph.Edge source (some char) target →
    ∀ other next, graph.Edge source other next → other = some char ∧ next = target

theorem Edit.Adds.unique {other : Option Char} {next : Nat} (adds : edit.Adds source label target)
    (again : edit.Adds source other next) : other = label ∧ next = target := by
  cases edit with
  | node => exact adds.elim
  | epsilon first second => exact ⟨again.2.1.trans adds.2.1.symm, again.2.2.trans adds.2.2.symm⟩
  | transition first char second =>
      exact ⟨again.2.1.trans adds.2.1.symm, again.2.2.trans adds.2.2.symm⟩

theorem WellWired.apply (wired : graph.WellWired) (fits : edit.Fits low graph) :
    (graph.apply edit).WellWired := by
  constructor
  · intro source label target edge
    apply Nat.lt_of_lt_of_le _ (size_le_apply graph edit)
    obtain old | new := fits.edge_apply.mp edge
    · exact wired.closed source label target old
    · exact (fits _ _ _ new).goal.2
  · intro source char target edge other next beside
    obtain old | new := fits.edge_apply.mp edge
    · obtain oldBeside | newBeside := fits.edge_apply.mp beside
      · exact wired.alone source char target old other next oldBeside
      · exact absurd ((fits _ _ _ newBeside).beside _ _ old).2 (Option.some_ne_none char)
    · obtain oldBeside | newBeside := fits.edge_apply.mp beside
      · exact absurd ((fits _ _ _ new).beside _ _ oldBeside).1 (Option.some_ne_none char)
      · exact new.unique newBeside

namespace Wires

theorem keeps {property : Graph → Prop}
    (step : ∀ graph edit, property graph → edit.Fits low graph → property (graph.apply edit))
    (wires : Wires low graph front after) (holds : property graph) : property after := by
  induction wires with
  | done => exact holds
  | edit fits _ ih => exact ih (step _ _ holds fits)

theorem mono {lower : Nat} (wires : Wires low graph front after) (below : lower ≤ low) :
    Wires lower graph front after := by
  induction wires with
  | done => exact .done _
  | edit fits _ ih =>
      refine .edit (fun source label target adds => ?_) ih
      obtain ⟨origin, goal, beside⟩ := fits source label target adds
      exact ⟨⟨Nat.le_trans below origin.1, origin.2⟩, ⟨Nat.le_trans below goal.1, goal.2⟩, beside⟩

theorem edge_cases (wires : Wires low graph front after) (edge : after.Edge source label target) :
    graph.Edge source label target ∨ Within low after source ∧ Within low after target := by
  induction wires with
  | done => exact .inl edge
  | edit fits rest ih =>
      obtain before | within := ih edge
      · obtain old | new := fits.edge_apply.mp before
        · exact .inl old
        · obtain ⟨origin, goal, -⟩ := fits _ _ _ new
          have grown := Nat.le_trans (size_le_apply _ _) rest.size_le
          exact .inr ⟨⟨origin.1, Nat.lt_of_lt_of_le origin.2 grown⟩,
            ⟨goal.1, Nat.lt_of_lt_of_le goal.2 grown⟩⟩
      · exact .inr within

end Wires

/-- No edge leads into the entry node or out of the accept node. -/
def Seals (graph : Graph) (fragment : Fragment) : Prop :=
  ∀ source label target, graph.Edge source label target →
    source ≠ fragment.accept ∧ target ≠ fragment.entry

/-- Later edges, among later nodes, leave the ends of a pattern as they are. -/
theorem Seals.wires {fragment : Fragment} (sealed : graph.Seals fragment)
    (wires : Wires low graph front after) (entry : fragment.entry < low)
    (accept : fragment.accept < low) : after.Seals fragment := by
  intro source label target edge
  obtain old | ⟨origin, goal⟩ := wires.edge_cases edge
  · exact sealed source label target old
  · exact ⟨Nat.ne_of_gt (Nat.lt_of_lt_of_le accept origin.1),
      Nat.ne_of_gt (Nat.lt_of_lt_of_le entry goal.1)⟩

section Entry

variable {language : Language Char}

theorem Loops.ne_entry {inner : Fragment} (loop : Loops middle after inner)
    (laid : Lays graph middle inner language) (new : graph.size ≤ source)
    (edge : after.Edge source label target) : target ≠ middle.size := by
  obtain old | ⟨-, -, same | same⟩ := (loop.edges _ _ _).mp edge
  · exact Nat.ne_of_lt (laid.confined _ _ _ new old).2
  · exact same ▸ Nat.ne_of_lt laid.entry.2
  · omega

theorem Chains.ne_entry {linked : Graph} {last : Nat}
    (chain : Chains graph.addEnds.1 linked graph.size last language) (new : graph.size ≤ source)
    (edge : (linked.addEpsilon last (graph.size + 1)).Edge source label target) :
    target ≠ graph.size := by
  obtain old | ⟨-, -, rfl⟩ := (edge_addEpsilon chain.last_inside).mp edge
  · have place := (chain.confined_ends new old).1
    omega
  · omega

theorem Branches.ne_entry (branches : Branches graph.addEnds.1 after graph.addEnds.2 language)
    (new : graph.size ≤ source) (edge : after.Edge source label target) :
    target ≠ graph.size := by
  have size := size_addEnds graph
  have accept := accept_addEnds graph
  obtain within | later := Nat.lt_or_ge source graph.addEnds.1.size
  · by_cases first : source = graph.addEnds.2.entry
    · subst first
      obtain old | ⟨-, added⟩ := branches.forked _ _ edge
      · exact absurd (edge_addEnds.mp old).inside (Nat.lt_irrefl _)
      · have place := added.1
        omega
    · have entry := entry_addEnds graph
      have second : source = graph.addEnds.2.accept := by omega
      subst second
      exact absurd edge (branches.final (forkable_addEnds graph) _ _)
  · obtain added | same := branches.confined _ _ _ later edge
    · have place := added.1
      omega
    · omega

theorem ne_entry (graph : Graph) (pattern : Pattern) (new : graph.size ≤ source)
    (edge : (graph.addPattern pattern).1.Edge source label target) :
    target ≠ (graph.addPattern pattern).2.entry := by
  have size := size_addEnds graph
  have inside : graph.size < graph.addEnds.1.size := by omega
  cases pattern with
  | symbol char =>
      simp only [addPattern, ends_addEnds] at edge ⊢
      have fresh : ∀ target, ¬ graph.addEnds.1.Edge graph.size (some char) target :=
        fun target => bare_size graph (some char) target
      obtain old | ⟨-, -, rfl⟩ := (edge_addTransition inside fresh).mp edge
      · exact absurd (edge_addEnds.mp old).inside (Nat.not_lt_of_ge new)
      · omega
  | nothing =>
      simp only [addPattern, ends_addEnds] at edge ⊢
      obtain old | ⟨-, -, rfl⟩ := (edge_addEpsilon inside).mp edge
      · exact absurd (edge_addEnds.mp old).inside (Nat.not_lt_of_ge new)
      · omega
  | star inner =>
      have laid := addPattern_lays graph inner
      simp only [addPattern, ends_addEnds] at edge ⊢
      exact (loops_addEpsilon laid.accept.2).ne_entry laid new edge
  | sequence items =>
      have chain := addItems_chains _ _ inside (bare_size graph) items
      simp only [addPattern, ends_addEnds] at edge ⊢
      exact chain.ne_entry new edge
  | choice alternatives =>
      simp only [addPattern] at edge ⊢
      exact (addChoices_branches _ _ (forkable_addEnds graph) alternatives).ne_entry new edge

end Entry

theorem seals_compile {text : String} {fragment : Fragment} (wired : graph.WellWired)
    (compiled : graph.compile text = (after, .ok fragment)) : after.Seals fragment := by
  obtain ⟨normalized, pattern, -, -, added⟩ := compile_eq_ok compiled
  have laid := addPattern_lays graph pattern
  obtain ⟨rfl, rfl⟩ := Prod.mk.inj added
  intro source label target edge
  refine ⟨?_, ?_⟩
  · rintro rfl
    exact laid.final _ _ edge
  · obtain old | new := Nat.lt_or_ge source graph.size
    · have kept := (laid.grows.kept _ _ _ old id).mp edge
      exact Nat.ne_of_lt (Nat.lt_of_lt_of_le (wired.closed _ _ _ kept) laid.entry.1)
    · exact ne_entry graph pattern new edge

def compileAll (graph : Graph) (texts : List String) : Graph :=
  texts.foldl (fun graph text => (graph.compile text).1) graph

/-- All edits that compiling the texts one after another makes. -/
def history (graph : Graph) : List String → List Edit
  | [] => []
  | text :: texts => graph.edits text ++ history (graph.compile text).1 texts

def Issues (graph : Graph) (texts : List String) (index id : Nat) : Prop :=
  Added (graph.compileAll (texts.take index)) (graph.compileAll (texts.take (index + 1))) id

def Returns (graph : Graph) (texts : List String) (index : Nat) (fragment : Fragment) : Prop :=
  ∃ text, texts[index]? = some text ∧
    ((graph.compileAll (texts.take index)).compile text).2 = .ok fragment

variable {texts earlier later : List String}

theorem history_wires (graph : Graph) (texts : List String) :
    Wires graph.size graph (graph.history texts) (graph.compileAll texts) := by
  induction texts generalizing graph with
  | nil => exact .done graph
  | cons text texts ih =>
      have wires := edits_wires graph text
      exact wires.append ((ih _).mono wires.size_le)

theorem history_append (graph : Graph) (earlier later : List String) :
    graph.history (earlier ++ later) =
      graph.history earlier ++ (graph.compileAll earlier).history later := by
  induction earlier generalizing graph with
  | nil => rfl
  | cons text earlier ih =>
      rw [List.cons_append, history, ih, history, List.append_assoc]
      rfl

@[simp]
theorem compileAll_append (graph : Graph) (earlier later : List String) :
    graph.compileAll (earlier ++ later) = (graph.compileAll earlier).compileAll later :=
  List.foldl_append

@[simp]
theorem run_append (graph : Graph) (front back : List Edit) :
    graph.run (front ++ back) = (graph.run front).run back :=
  List.foldl_append

theorem size_take_mono (graph : Graph) (texts : List String) {first second : Nat}
    (le : first ≤ second) :
    (graph.compileAll (texts.take first)).size ≤ (graph.compileAll (texts.take second)).size := by
  obtain ⟨more, rfl⟩ := Nat.exists_eq_add_of_le le
  rw [List.take_add, compileAll_append]
  exact (history_wires _ _).size_le

theorem Issues.le {first second id : Nat} (issued : graph.Issues texts first id)
    (again : graph.Issues texts second id) : first ≤ second := by
  by_contra behind
  have mono := size_take_mono graph texts (Nat.lt_of_not_le behind)
  exact absurd again.2 (Nat.not_lt_of_ge (Nat.le_trans mono issued.1))

theorem Issues.unique {first second id : Nat} (issued : graph.Issues texts first id)
    (again : graph.Issues texts second id) : first = second :=
  Nat.le_antisymm (issued.le again) (again.le issued)

theorem prefix_history_cons {text : String} {done : List Edit}
    (reached : done <+: graph.history (text :: texts)) :
    done <+: graph.edits text ∨
      ∃ rest, done = graph.edits text ++ rest ∧ rest <+: (graph.compile text).1.history texts := by
  obtain ⟨rest, same⟩ := reached
  obtain ⟨more, split, -⟩ | ⟨more, split, tail⟩ := List.append_eq_append_iff.mp same
  · exact .inl ⟨more, split.symm⟩
  · exact .inr ⟨more, split, ⟨rest, tail.symm⟩⟩

theorem edge_issued {done : List Edit} (reached : done <+: graph.history texts)
    (edge : (graph.run done).Edge source label target) :
    graph.Edge source label target ∨
      ∃ index, graph.Issues texts index source ∧ graph.Issues texts index target := by
  induction texts generalizing graph done with
  | nil =>
      obtain rfl := List.prefix_nil.mp reached
      exact .inl edge
  | cons text texts ih =>
      have wires := edits_wires graph text
      obtain within | ⟨rest, rfl, beyond⟩ := prefix_history_cons reached
      · obtain ⟨rest, split⟩ := within
        rw [← split] at wires
        refine (wires.split.1.edge_cases edge).imp_right fun added => ⟨0, ?_⟩
        have grown := wires.split.2.size_le
        exact ⟨⟨added.1.1, Nat.lt_of_lt_of_le added.1.2 grown⟩,
          ⟨added.2.1, Nat.lt_of_lt_of_le added.2.2 grown⟩⟩
      · rw [run_append, wires.run_eq] at edge
        obtain old | ⟨index, issued⟩ := ih beyond edge
        · exact (wires.edge_cases old).imp_right fun added => ⟨0, added⟩
        · exact .inr ⟨index + 1, issued⟩

theorem history_take (graph : Graph) (texts : List String) (count : Nat) :
    graph.history (texts.take count) ++
        (graph.compileAll (texts.take count)).history (texts.drop count) =
      graph.history texts := by
  rw [← history_append, List.take_append_drop]

theorem wellWired_point {done : List Edit} (wired : graph.WellWired)
    (reached : done <+: graph.history texts) : (graph.run done).WellWired := by
  obtain ⟨rest, split⟩ := reached
  have wires := history_wires graph texts
  rw [← split] at wires
  exact wires.split.1.keeps (fun _ _ holds fits => holds.apply fits) wired

theorem bare_of_transition {done : List Edit} {char : Char}
    (next : done ++ [.transition source char target] <+: graph.history texts) :
    (graph.run done).Bare source ∧ target < (graph.run done).size := by
  obtain ⟨rest, split⟩ := next
  have wires := history_wires graph texts
  rw [← split, List.append_assoc] at wires
  cases wires.split.2 with
  | edit fits _ =>
      obtain ⟨-, goal, beside⟩ := fits _ _ _ ⟨rfl, rfl, rfl⟩
      refine ⟨fun other next edge => ?_, goal.2⟩
      exact Option.some_ne_none char (beside other next edge).1

theorem seals_point {done : List Edit} {index : Nat} {fragment : Fragment}
    (wired : graph.WellWired) (returned : graph.Returns texts index fragment)
    (behind : graph.history (texts.take (index + 1)) <+: done)
    (reached : done <+: graph.history texts) : (graph.run done).Seals fragment := by
  obtain ⟨text, listed, result⟩ := returned
  have taken : texts.take (index + 1) = texts.take index ++ [text] := by
    rw [List.take_add_one, listed]
    rfl
  have compiled : (graph.compileAll (texts.take index)).compile text =
      (graph.compileAll (texts.take (index + 1)), .ok fragment) := by
    rw [taken, compileAll_append, ← result]
    rfl
  have before : (graph.compileAll (texts.take index)).WellWired := by
    rw [← (history_wires graph _).run_eq]
    exact wellWired_point wired ⟨_, history_take graph texts index⟩
  obtain ⟨normalized, -, laid⟩ := compile_lays compiled
  obtain ⟨more, rfl⟩ := behind
  obtain ⟨rest, split⟩ := reached
  rw [← history_take graph texts (index + 1), List.append_assoc,
    List.append_cancel_left_eq] at split
  have wires := history_wires (graph.compileAll (texts.take (index + 1))) (texts.drop (index + 1))
  rw [← split] at wires
  rw [run_append, (history_wires graph (texts.take (index + 1))).run_eq]
  exact (seals_compile before compiled).wires wires.split.1 laid.entry.2 laid.accept.2

theorem wellWired_empty (definitions : DefinitionTable) :
    ({ definitions } : Graph).WellWired := by
  have bare : ∀ source label target, ¬ ({ definitions } : Graph).Edge source label target :=
    fun source label target edge => Nat.not_lt_zero source edge.inside
  constructor
  · intro source label target edge
    exact absurd edge (bare source label target)
  · intro source char target edge
    exact absurd edge (bare source (some char) target)

/--
At every point between the edits of any compilations in one graph, whether they succeed or fail:
edges lead to nodes there are, transitions stand alone and are never replaced, edges and paths
stay among the nodes of one compilation, and the ends of a finished pattern are sealed.
-/
theorem compilations_apart (definitions : DefinitionTable) (texts : List String) :
    let start : Graph := { definitions }
    (∀ count, start.history (texts.take count) <+: start.history texts ∧
      start.run (start.history (texts.take count)) = start.compileAll (texts.take count)) ∧
    (∀ first second id, start.Issues texts first id → start.Issues texts second id →
      first = second) ∧
    ∀ done, done <+: start.history texts →
      (start.run done).WellWired ∧
      (∀ source label target, (start.run done).Edge source label target →
        ∃ index, start.Issues texts index source ∧ start.Issues texts index target) ∧
      (∀ source word target index, (start.run done).Path source word target →
        start.Issues texts index source → start.Issues texts index target) ∧
      (∀ index fragment, start.Returns texts index fragment →
        start.history (texts.take (index + 1)) <+: done → (start.run done).Seals fragment) ∧
      ∀ source char target, done ++ [.transition source char target] <+: start.history texts →
        (start.run done).Bare source ∧ target < (start.run done).size := by
  intro start
  have wired : start.WellWired := wellWired_empty definitions
  have joined : ∀ done, done <+: start.history texts → ∀ source label target,
      (start.run done).Edge source label target →
        ∃ index, start.Issues texts index source ∧ start.Issues texts index target := by
    intro done reached source label target edge
    refine (edge_issued reached edge).resolve_left fun old => ?_
    exact absurd old.inside (Nat.not_lt_zero _)
  refine ⟨fun count => ⟨⟨_, history_take start texts count⟩, (history_wires start _).run_eq⟩,
    fun _ _ _ issued again => issued.unique again, fun done reached => ⟨?_, ?_, ?_, ?_, ?_⟩⟩
  · exact wellWired_point wired reached
  · exact joined done reached
  · intro source word target index path issued
    induction path with
    | here => exact issued
    | step edge _ ih =>
        obtain ⟨other, first, second⟩ := joined done reached _ _ _ edge
        exact ih (first.unique issued ▸ second)
  · intro index fragment returned behind
    exact seals_point wired returned behind reached
  · intro source char target next
    exact bare_of_transition next

def withFault : List String := ["a*", "b(", "x|\x7bBit\x7d"]

theorem compilations_apart_withFault :
    let start : Graph := { definitions := ⟨[("Bit", "0|1")]⟩ }
    start.Returns withFault 0 ⟨0, 1⟩ ∧
      (start.run (start.history withFault)).Seals ⟨0, 1⟩ ∧
      (start.run (start.history withFault)).WellWired := by
  intro start
  have returned : start.Returns withFault 0 ⟨0, 1⟩ := ⟨"a*", rfl, by cbv⟩
  obtain ⟨points, -, holds⟩ := compilations_apart ⟨[("Bit", "0|1")]⟩ withFault
  obtain ⟨wired, -, -, sealed, -⟩ := holds _ (List.prefix_refl _)
  exact ⟨returned, sealed 0 _ returned (points 1).1, wired⟩

end Graph

end MaximalMunch
