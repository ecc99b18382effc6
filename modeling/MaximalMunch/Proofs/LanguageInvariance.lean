import MaximalMunch.Proofs.InlinedReferences
import MaximalMunch.Proofs.Refinement

/-!
What a lexer does with an input depends on the languages of its rules alone. Specifications that
agree in these, state by state, give the same streams, and so do specifications that differ in how
they are written.
-/

namespace MaximalMunch

def SameWords (first second : Language Char) : Prop :=
  ∀ word, word ≠ [] → (word ∈ first ↔ word ∈ second)

section Matches

variable {first second : List (Language Char)} {text : List Char} {index length : Nat}

theorem take_ne_nil (positive : 0 < length) (bounded : length ≤ text.length) :
    text.take length ≠ [] := by
  intro empty
  have short := congrArg List.length empty
  rw [List.length_take_of_le bounded, List.length_nil] at short
  omega

theorem notMem_of_forall₂ (same : List.Forall₂ SameWords first second) {word : List Char}
    (present : word ≠ []) (absent : ∀ language ∈ first, word ∉ language) :
    ∀ language ∈ second, word ∉ language := by
  intro language listed member
  rcases exists_of_forall₂_right same listed with ⟨other, known, agree⟩
  exact absent other known ((agree word present).mpr member)

theorem Unmatched.transfer (same : List.Forall₂ SameWords first second)
    (unmatched : Unmatched first text) : Unmatched second text :=
  fun length positive bounded => notMem_of_forall₂ same (take_ne_nil positive bounded)
    (unmatched length positive bounded)

theorem Wins.transfer (same : List.Forall₂ SameWords first second)
    (wins : Wins first text index length) : Wins second text index length := by
  have present := take_ne_nil wins.positive wins.bounded
  refine ⟨wins.positive, wins.bounded, ?_, ?_, ?_⟩
  · rcases wins.holds with ⟨language, listed, member⟩
    rcases getElem?_of_forall₂ same listed with ⟨other, found, agree⟩
    exact ⟨other, found, (agree _ present).mp member⟩
  · intro earlier less language listed member
    rcases getElem?_of_forall₂ same.flip listed with ⟨other, found, agree⟩
    exact wins.first earlier less other found ((agree _ present).mpr member)
  · intro other longer bounded
    exact notMem_of_forall₂ same (take_ne_nil (Nat.zero_lt_of_lt longer) bounded)
      (wins.longest other longer bounded)

end Matches

/-- Two rules do the same, each with the definitions it was written for. -/
structure RuleSpec.Alike (definitions others : DefinitionTable) (rule other : RuleSpec) :
    Prop where
  unit : rule.unit = other.unit
  actions : rule.actions = other.actions
  words : SameWords (rule.language definitions) (other.language others)

/-- The same start state, and in every state rules that do the same one by one. -/
structure Specification.Alike (first second : Specification) : Prop where
  startState : first.startState = second.startState
  rules : ∀ state, List.Forall₂ (RuleSpec.Alike first.definitions second.definitions)
    (first.rulesOf state) (second.rulesOf state)

namespace Specification.Alike

variable {first second : Specification} {input : List Char} {moment after : Moment}
  {taken : Taken} {outcome : Outcome} {stream : TokenStream}

theorem languages (alike : first.Alike second) (state : String) :
    List.Forall₂ SameWords (first.languagesOf state) (second.languagesOf state) := by
  rw [languagesOf, languagesOf, List.forall₂_map_left_iff, List.forall₂_map_right_iff]
  exact (alike.rules state).imp fun rule other same => same.words

theorem takes (alike : first.Alike second) (takes : Takes first input moment taken) :
    Takes second input moment taken := by
  rcases takes with ⟨index, rule, length, listed, wins, rfl⟩
  rcases getElem?_of_forall₂ (alike.rules moment.state) listed with ⟨other, found, same⟩
  refine ⟨index, other, length, found, wins.transfer (alike.languages moment.state), ?_⟩
  rw [Moment.take, Moment.take, RuleSpec.tag?, RuleSpec.tag?, same.unit, same.actions]

theorem turn (alike : first.Alike second) (turn : Turn first input moment outcome after) :
    Turn second input moment outcome after := by
  cases turn with
  | unmatched next unmatched =>
      exact .unmatched next (unmatched.transfer (alike.languages moment.state))
  | refused next takes empty repeats => exact .refused next (alike.takes takes) empty repeats
  | kept takes moves => exact .kept (alike.takes takes) moves

theorem lexes (alike : first.Alike second) (lexes : Lexes first input moment stream) :
    Lexes second input moment stream := by
  induction lexes with
  | ended ended => exact .ended ended
  | turn turn later ih => exact .turn (alike.turn turn) ih

end Specification.Alike

namespace Specification

variable {first second : Specification} {bundle : Bundle}

/-- State by state the same rules, but for their lines and for patterns that are related. -/
structure Follows (related : RuleSpec → RuleSpec → Prop) (first second : Specification) :
    Prop where
  startState : first.startState = second.startState
  rules : ∀ state, List.Forall₂ (fun rule other => rule.unit = other.unit ∧
    rule.actions = other.actions ∧ related rule other) (first.rulesOf state) (second.rulesOf state)

/--
Ways to write a specification otherwise. Rules of different states may be moved past each other in
all of them.
-/
inductive Rewrites (first second : Specification) : Prop
  | moving (definitions : first.definitions = second.definitions)
      (follows : Follows (fun rule other => rule.pattern = other.pattern) first second)
  | replacing (definitions : first.definitions = second.definitions)
      (follows : Follows (fun rule other => SameWords (rule.language first.definitions)
        (other.language first.definitions)) first second)
  | inlining (definitions : first.definitions = second.definitions)
      (follows : Follows (fun rule other =>
        Inlines first.definitions rule.pattern.toList other.pattern.toList) first second)
  | inliningDefinitions (includes : first.definitions.Includes second.definitions)
      (follows : Follows (fun rule other => rule.pattern = other.pattern) first second)
  /-- The definitions stand in another order, among others that are not used. -/
  | arranging (kept : first.definitions.entries ⊆ second.definitions.entries)
      (distinct : second.definitions.names.Nodup)
      (follows : Follows (fun rule other => rule.pattern = other.pattern) first second)
  | relisting {units : List String} (same : second = { first with units := units })

theorem expands_of_layRules {definitions : DefinitionTable} {graph later : Graph}
    {rules : List RuleSpec} {laid : List (String × Rule)}
    (resolves : definitions.resolve = .ok graph.definitions)
    (lays : graph.layRules rules = .ok (later, laid)) {rule : RuleSpec} (member : rule ∈ rules) :
    ∃ expanded, Expands definitions (Piece.ofText rule.pattern) expanded := by
  induction rules generalizing graph laid with
  | nil => cases member
  | cons head rules ih =>
      rcases Graph.layRules_cons lays with ⟨next, fragment, rest, compiled, more, rfl⟩
      rcases Graph.compile_lays compiled with ⟨normalized, substituted, block⟩
      rcases List.mem_cons.mp member with rfl | member
      · exact ⟨_, DefinitionTable.expands_of_substitute resolves substituted⟩
      · rw [← block.grows.definitions] at resolves
        exact ih resolves more member

theorem expands_of_compile (compiled : first.compile = .ok bundle) {state : String}
    {rule : RuleSpec} (member : rule ∈ first.rulesOf state) :
    ∃ expanded, Expands first.definitions (Piece.ofText rule.pattern) expanded := by
  rcases compile_eq_ok compiled with ⟨graph, laid, lays, -⟩
  rcases layOut_eq_ok lays with ⟨resolved, resolves, placed⟩
  exact expands_of_layRules resolves placed (List.mem_filter.mp member).1

theorem forall₂_imp_of_mem {α β : Type} {related other : α → β → Prop} {inputs : List α}
    {outputs : List β} (relate : List.Forall₂ related inputs outputs)
    (imply : ∀ input ∈ inputs, ∀ output, related input output → other input output) :
    List.Forall₂ other inputs outputs := by
  induction relate with
  | nil => exact .nil
  | cons relates later ih =>
      exact .cons (imply _ List.mem_cons_self _ relates)
        (ih fun input member => imply input (List.mem_cons_of_mem _ member))

theorem Follows.alike {related : RuleSpec → RuleSpec → Prop}
    (follows : Follows related first second) (compiled : first.compile = .ok bundle)
    (expand : ∀ rule other expanded, related rule other →
      Expands first.definitions (Piece.ofText rule.pattern) expanded →
        Expands second.definitions (Piece.ofText other.pattern) expanded) :
    first.Alike second := by
  refine ⟨follows.startState, ?_⟩
  intro state
  apply forall₂_imp_of_mem (follows.rules state)
  rintro rule member other ⟨unit, actions, relates⟩
  rcases expands_of_compile compiled member with ⟨expanded, expands⟩
  refine ⟨unit, actions, ?_⟩
  intro word present
  rw [RuleSpec.language_eq expands, RuleSpec.language_eq (expand rule other _ relates expands)]

theorem Rewrites.alike (rewrites : first.Rewrites second) (compiled : first.compile = .ok bundle) :
    first.Alike second := by
  cases rewrites with
  | moving definitions follows =>
      apply follows.alike compiled
      intro rule other expanded same expands
      rw [← definitions, ← same]
      exact expands
  | replacing definitions follows =>
      refine ⟨follows.startState, fun state => (follows.rules state).imp ?_⟩
      rintro rule other ⟨unit, actions, words⟩
      exact ⟨unit, actions, definitions ▸ words⟩
  | inlining definitions follows =>
      apply follows.alike compiled
      intro rule other expanded inlines expands
      rw [← definitions]
      exact inlines.expandsTo expands
  | inliningDefinitions includes follows =>
      apply follows.alike compiled
      intro rule other expanded same expands
      rw [← same]
      exact includes.expands expands
  | arranging kept distinct follows =>
      apply follows.alike compiled
      intro rule other expanded same expands
      rw [← same]
      exact (DefinitionTable.includes_of_subset kept distinct).expands expands
  | relisting same =>
      cases same
      exact ⟨rfl, fun state => List.forall₂_same.mpr fun rule member => ⟨rfl, rfl, fun _ _ => .rfl⟩⟩

end Specification

/--
Lexers of specifications that agree state by state in units, actions and non-empty words of their
rules give the same stream for every input, and so do lexers of a specification that is written in
two ways.
-/
theorem tokenize_eq_of_alike {first second : Specification} {lexer other : Bundle}
    (compiled : first.compile = .ok lexer) (also : second.compile = .ok other)
    (related : first.Alike second ∨ first.Rewrites second) (input : String) :
    ∃ stream, tokenize lexer input = .ok stream ∧ tokenize other input = .ok stream := by
  have alike : first.Alike second := by
    rcases related with alike | rewrites
    · exact alike
    · exact rewrites.alike compiled
  rcases lexes_tokenize (Specification.implements_of_compile compiled) input with
    ⟨stream, tokenized, lexes⟩
  rcases lexes_tokenize (Specification.implements_of_compile also) input with
    ⟨again, retokenized, relexes⟩
  have listedFirst : first.states.headD "" = second.states.headD "" := alike.startState
  have begins : Moment.start first = Moment.start second := by
    rw [Moment.start, Moment.start, listedFirst]
  rw [← begins] at relexes
  rw [relexes.unique (alike.lexes lexes)] at retokenized
  exact ⟨stream, tokenized, retokenized⟩

def letters : Specification where
  definitions := ⟨[("letter", "a|b")]⟩
  states := ["S", "T"]
  units := ["WORD"]
  rules := [⟨"S", "\x7bletter\x7d", "WORD", [.switchState "T"], 4⟩,
    ⟨"T", ",", "-", [.switchState "S"], 8⟩]

def lettersOrNone : Specification where
  definitions := ⟨[("letter", "a|b")]⟩
  states := ["S", "T"]
  rules := [⟨"T", ",", "-", [.switchState "S"], 4⟩,
    ⟨"S", "\x7bletter\x7d|$", "WORD", [.switchState "T"], 8⟩]

theorem letters_replaced : letters.Rewrites lettersOrNone := by
  let letter : Pattern :=
    .sequence [.choice [.sequence [.symbol 'a'], .sequence [.symbol 'b']]]
  have resolves : letters.definitions.resolve = .ok letters.definitions := by cbv
  have plain : letters.definitions.substitute "\x7bletter\x7d" = .ok "(a|b)" := by cbv
  have orNone : letters.definitions.substitute "\x7bletter\x7d|$" = .ok "(a|b)|$" := by cbv
  have single : Pattern.read "(a|b)" = .ok letter := by cbv
  have double : Pattern.read "(a|b)|$" = .ok (.choice [letter, .sequence [.nothing]]) := by cbv
  have empty : (Pattern.sequence [.nothing]).language = 1 := by
    rw [Pattern.language_sequence_cons, Pattern.language_nothing, Pattern.language_sequence_nil,
      one_mul]
  have words : SameWords (textLanguage "(a|b)".toList) (textLanguage "(a|b)|$".toList) := by
    intro word present
    rw [mem_textLanguage_iff single, mem_textLanguage_iff double, Pattern.language_choice_cons,
      Pattern.language_choice_cons, Pattern.language_choice_nil, add_zero, empty,
      Language.mem_add, Language.mem_one]
    exact (or_iff_left present).symm
  refine .replacing rfl ⟨rfl, ?_⟩
  intro state
  by_cases begins : "S" = state
  · subst begins
    refine .cons ⟨rfl, rfl, ?_⟩ .nil
    show SameWords (RuleSpec.language letters.definitions _) _
    rw [RuleSpec.language_eq (DefinitionTable.expands_of_substitute resolves plain),
      RuleSpec.language_eq (DefinitionTable.expands_of_substitute resolves orNone)]
    exact words
  · by_cases behind : "T" = state
    · subst behind
      exact .cons ⟨rfl, rfl, fun _ _ => .rfl⟩ .nil
    · simp [Specification.rulesOf, letters, lettersOrNone, begins, behind]

theorem tokenize_eq_of_alike_letters : ∃ lexer other stream, letters.compile = .ok lexer ∧
    lettersOrNone.compile = .ok other ∧ letters.Rewrites lettersOrNone ∧
      tokenize lexer "a,bb" = .ok stream ∧ tokenize other "a,bb" = .ok stream := by
  have compiles : letters.compile.isOk = true := by cbv
  have also : lettersOrNone.compile.isOk = true := by cbv
  cases first : letters.compile with
  | error fault =>
      rw [first] at compiles
      cases compiles
  | ok lexer =>
      cases second : lettersOrNone.compile with
      | error fault =>
          rw [second] at also
          cases also
      | ok other =>
          rcases tokenize_eq_of_alike first second (.inr letters_replaced) "a,bb" with
            ⟨stream, tokenized, retokenized⟩
          exact ⟨lexer, other, stream, rfl, rfl, letters_replaced, tokenized, retokenized⟩

end MaximalMunch
