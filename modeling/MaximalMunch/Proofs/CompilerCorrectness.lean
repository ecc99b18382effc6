import MaximalMunch.Proofs.FragmentLanguage
import MaximalMunch.Proofs.PatternGrammar
import MaximalMunch.Proofs.SimulationPaths
import Mathlib

/-!
Compiling a pattern text gives a fragment that accepts exactly the words the grammar gives to the
text, whatever the graph held before and whatever is added to it later.
-/

namespace MaximalMunch

namespace Graph

variable {before middle after graph later : Graph} {fragment : Fragment}
  {language : Language Char} {text normalized : String} {pattern : Pattern}

theorem Grows.refl (graph : Graph) : Grows graph graph fun _ => False :=
  ⟨rfl, Nat.le_refl _, fun _ _ _ _ _ => Iff.rfl⟩

theorem Grows.trans (first : Grows before middle fun _ => False)
    (second : Grows middle after fun _ => False) : Grows before after fun _ => False := by
  constructor
  · exact second.definitions.trans first.definitions
  · exact Nat.le_trans first.size_le second.size_le
  · intro source label target old free
    have inMiddle : source < middle.size := Nat.lt_of_lt_of_le old first.size_le
    exact (second.kept source label target inMiddle free).trans
      (first.kept source label target old free)

theorem Lays.path_iff (laid : Lays before middle fragment language)
    (grown : Grows middle after fun _ => False) (word : List Char) :
    after.Path fragment.entry word fragment.accept ↔ word ∈ language := by
  have outgoing : ∀ source label target, Added before middle source →
      middle.Edge source label target →
        after.Edge source label target ∧ Added before middle target := by
    intro source label target added edge
    constructor
    · exact (grown.kept source label target added.2 id).mpr edge
    · exact laid.confined source label target added.1 edge
  have incoming : ∀ source label target, Added before middle source →
      after.Edge source label target →
        middle.Edge source label target ∧ Added before middle target := by
    intro source label target added edge
    have kept := (grown.kept source label target added.2 id).mp edge
    exact ⟨kept, laid.confined source label target added.1 kept⟩
  rw [← laid.spelled word]
  constructor
  · intro path
    exact (Path.confined incoming path laid.entry).1
  · intro path
    exact (Path.confined outgoing path laid.entry).1

theorem Lays.accepts_iff (laid : Lays before middle fragment language)
    (grown : Grows middle after fun _ => False) (word : List Char) :
    fragment.accepts after word = true ↔ word ∈ language :=
  Fragment.accepts_iff_path.trans (laid.path_iff grown word)

theorem addPattern_accepts_iff (graph : Graph) (pattern : Pattern) (word : List Char) :
    (graph.addPattern pattern).2.accepts (graph.addPattern pattern).1 word = true ↔
      word ∈ pattern.language :=
  (addPattern_lays graph pattern).accepts_iff (Grows.refl _) word

theorem compile_eq_ok (compiled : graph.compile text = (later, .ok fragment)) :
    ∃ normalized pattern, graph.definitions.substitute text = .ok normalized ∧
      Pattern.read normalized = .ok pattern ∧ (later, fragment) = graph.addPattern pattern := by
  unfold compile at compiled
  cases substituted : graph.definitions.substitute text with
  | error fault => simp [substituted] at compiled
  | ok normalized =>
      cases read : Pattern.read normalized with
      | error draft => simp [substituted, read] at compiled
      | ok pattern =>
          simp only [substituted, read, Prod.mk.injEq, Except.ok.injEq] at compiled
          have same : (later, fragment) = graph.addPattern pattern := by
            rw [← compiled.1, ← compiled.2]
          exact ⟨normalized, pattern, rfl, read, same⟩

theorem compile_lays (compiled : graph.compile text = (later, .ok fragment)) :
    ∃ normalized, graph.definitions.substitute text = .ok normalized ∧
      Lays graph later fragment (textLanguage normalized.toList) := by
  rcases compile_eq_ok compiled with ⟨normalized, pattern, substituted, read, added⟩
  have same : textLanguage normalized.toList = pattern.language :=
    Set.ext (mem_textLanguage_iff read)
  have laid : Lays graph later fragment pattern.language := by
    have whole := addPattern_lays graph pattern
    rwa [← added] at whole
  exact ⟨normalized, substituted, same ▸ laid⟩

/--
A compiled fragment accepts a word if and only if the grammar gives the word to the text with
its references expanded.
-/
theorem compile_accepts_iff (compiled : graph.compile text = (later, .ok fragment)) :
    ∃ normalized, graph.definitions.substitute text = .ok normalized ∧
      ∀ word, fragment.accepts later word = true ↔ word ∈ textLanguage normalized.toList := by
  rcases compile_lays compiled with ⟨normalized, substituted, laid⟩
  exact ⟨normalized, substituted, laid.accepts_iff (Grows.refl later)⟩

def withForeignEdges : Graph where
  nodes := #[{ epsilon := OrderedSet.ofList [0, 7] },
    { transitions := OrderedMap.empty.insert 'a' 0 }]
  definitions := ⟨[("Bit", "0|1")]⟩

theorem compile_accepts_iff_withForeignEdges :
    withForeignEdges.compile "{Bit}**" =
        ((withForeignEdges.compile "{Bit}**").1, .ok ⟨2, 3⟩) ∧
      ∃ normalized, withForeignEdges.definitions.substitute "{Bit}**" = .ok normalized ∧
        ∀ word, Fragment.accepts (withForeignEdges.compile "{Bit}**").1 ⟨2, 3⟩ word = true ↔
          word ∈ textLanguage normalized.toList := by
  have compiled : withForeignEdges.compile "{Bit}**" =
      ((withForeignEdges.compile "{Bit}**").1, .ok ⟨2, 3⟩) := by
    have fragment : (withForeignEdges.compile "{Bit}**").2 = .ok ⟨2, 3⟩ := by cbv
    rw [← fragment]
  exact ⟨compiled, compile_accepts_iff compiled⟩

end Graph

end MaximalMunch
