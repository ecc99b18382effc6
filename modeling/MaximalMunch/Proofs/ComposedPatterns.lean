import MaximalMunch.Proofs.FullExpansion
import MaximalMunch.Proofs.PatternFaults

/-!
Putting pattern texts together. A text that compiles ends outside of all escapes, references and
groups, so what is written around it or behind it is read as if the text were a name: groups,
repetitions, sequences and choices of texts have the languages that the operations on words give.
-/

namespace MaximalMunch

/-- Every reference of the text is replaced by the body of its definition in parentheses. -/
inductive Inserts (table : DefinitionTable) : List Char → List Char → Prop
  | empty : Inserts table [] []
  | dangling : Inserts table ['\\'] ['\\']
  | escape (char : Char) {text out : List Char} (later : Inserts table text out) :
      Inserts table ('\\' :: char :: text) ('\\' :: char :: out)
  | char {char : Char} {text out : List Char} (noEscape : char ≠ '\\') (noBrace : char ≠ '\x7b')
      (later : Inserts table text out) : Inserts table (char :: text) (char :: out)
  | reference {name text out : List Char} {body : String}
      (balanced : Brackets.curly.Balanced name)
      (declared : table.get? (String.ofList name) = some body) (later : Inserts table text out) :
      Inserts table ('\x7b' :: (name ++ '\x7d' :: text))
        ('(' :: (body.toList ++ ')' :: out))

section Inserts

variable {table : DefinitionTable} {text rest out later : List Char} {raw : String}

theorem expand_reference_eq_ok {name : String} {part : List Char}
    (expands : Piece.expand table.body raw (.reference name) = .ok part) :
    ∃ body, table.get? name = some body ∧ part = '(' :: (body.toList ++ [')']) := by
  cases found : table.get? name with
  | none =>
      have bound : table.body name = .error (.undefinedReference name) := by
        rw [DefinitionTable.body, found]
      rw [Piece.expand, bound] at expands
      cases expands
  | some body =>
      have bound : table.body name = .ok body := by rw [DefinitionTable.body, found]
      rw [Piece.expand, bound] at expands
      cases expands
      exact ⟨body, rfl, rfl⟩

theorem inserts_of_forall₂ {position : Nat} {parts : List (List Char)}
    (each : List.Forall₂ (fun piece part => Piece.expand table.body raw piece = .ok part)
      (Piece.ofGlyphs position (Glyph.ofChars text)) parts) :
    Inserts table text parts.flatten := by
  induction text using reference_induction generalizing position parts with
  | empty =>
      rw [Glyph.ofChars, Piece.ofGlyphs] at each
      cases each
      exact .empty
  | dangling =>
      rw [Piece.ofGlyphs_dangling] at each
      cases each with
      | cons first none =>
          cases first
          cases none
          exact .dangling
  | escape char rest ih =>
      rw [Piece.ofGlyphs_escape] at each
      cases each with
      | cons first behind =>
          cases first
          exact .escape char (ih behind)
  | plain char rest noEscape noBrace ih =>
      rw [Piece.ofGlyphs_plain _ noEscape noBrace] at each
      cases each with
      | cons first behind =>
          cases first
          exact .char noEscape noBrace (ih behind)
  | unended rest never =>
      rw [Piece.ofGlyphs_unended _ never] at each
      cases each with
      | cons first _ => cases first
  | reference name rest balanced ih =>
      rw [Piece.ofGlyphs_reference _ balanced] at each
      cases each with
      | cons first behind =>
          obtain ⟨body, declared, rfl⟩ := expand_reference_eq_ok first
          have whole := Inserts.reference balanced declared (ih behind)
          simpa using whole

theorem inserts_of_substitute {expanded : String}
    (substituted : table.substitute raw = .ok expanded) :
    Inserts table raw.toList expanded.toList := by
  unfold DefinitionTable.substitute expandReferences at substituted
  cases mapped : (Piece.ofText raw).mapM (Piece.expand table.body raw) with
  | error fault =>
      rw [mapped] at substituted
      cases substituted
  | ok parts =>
      rw [mapped] at substituted
      cases substituted
      rw [String.toList_ofList]
      exact inserts_of_forall₂ (forall₂_of_mapM mapped)

namespace Inserts

theorem mapM_expand (inserts : Inserts table text out) (raw : String) (position : Nat) :
    ∃ parts, (Piece.ofGlyphs position (Glyph.ofChars text)).mapM (Piece.expand table.body raw) =
      .ok parts ∧ parts.flatten = out := by
  induction inserts generalizing position with
  | empty =>
      rw [Glyph.ofChars, Piece.ofGlyphs]
      exact ⟨[], rfl, rfl⟩
  | dangling =>
      rw [Piece.ofGlyphs_dangling]
      exact ⟨[['\\']], rfl, rfl⟩
  | @escape char text out later ih =>
      obtain ⟨parts, mapped, rfl⟩ := ih (position + 2)
      refine ⟨['\\', char] :: parts, ?_, rfl⟩
      rw [Piece.ofGlyphs_escape, List.mapM_cons, mapped]
      rfl
  | @char char text out noEscape noBrace later ih =>
      obtain ⟨parts, mapped, rfl⟩ := ih (position + 1)
      refine ⟨[char] :: parts, ?_, rfl⟩
      rw [Piece.ofGlyphs_plain _ noEscape noBrace, List.mapM_cons, mapped]
      rfl
  | @reference name text out body balanced declared later ih =>
      obtain ⟨parts, mapped, rfl⟩ := ih (position + name.length + 2)
      have bound : table.body (String.ofList name) = .ok body := by
        rw [DefinitionTable.body, declared]
      refine ⟨('(' :: body.toList ++ [')']) :: parts, ?_, by simp⟩
      rw [Piece.ofGlyphs_reference _ balanced, List.mapM_cons, mapped, Piece.expand, bound]
      rfl

theorem substitute (inserts : Inserts table raw.toList out) :
    table.substitute raw = .ok (String.ofList out) := by
  obtain ⟨parts, mapped, rfl⟩ := inserts.mapM_expand raw 0
  have whole : (Piece.ofText raw).mapM (Piece.expand table.body raw) = .ok parts := mapped
  rw [DefinitionTable.substitute, expandReferences, whole]
  rfl

/-- Inside a text escapes stay escapes, and an insertion ends in a parenthesis. -/
theorem complete_iff (inserts : Inserts table text out) : Complete out ↔ Complete text := by
  induction inserts with
  | empty => rfl
  | dangling => rfl
  | @escape char text out later ih =>
      have front := complete_escape char
      exact (complete_append_iff front).trans (ih.trans (complete_append_iff front).symm)
  | @char char text out noEscape noBrace later ih =>
      have front := complete_singleton noEscape
      exact (complete_append_iff front).trans (ih.trans (complete_append_iff front).symm)
  | @reference name text out body balanced declared later ih =>
      have front : Complete ('(' :: body.toList ++ [')']) := complete_concat (by decide)
      have whole := (complete_append_iff front).trans
        (ih.trans (complete_append_iff (complete_reference balanced)).symm)
      simpa using whole

theorem append (inserts : Inserts table text out) (complete : Complete text)
    (behind : Inserts table rest later) : Inserts table (text ++ rest) (out ++ later) := by
  induction inserts with
  | empty => exact behind
  | dangling => exact absurd complete (by simp [Complete, trailingBackslashes])
  | @escape char text out _ ih =>
      exact .escape char (ih ((complete_append_iff (complete_escape char)).mp complete))
  | @char char text out noEscape noBrace _ ih =>
      have front := complete_singleton noEscape
      exact .char noEscape noBrace (ih ((complete_append_iff front).mp complete))
  | @reference name text out body balanced declared _ ih =>
      have split : '\x7b' :: (name ++ '\x7d' :: text) = '\x7b' :: (name ++ ['\x7d']) ++ text := by
        simp
      rw [split, complete_append_iff (complete_reference balanced)] at complete
      have whole := Inserts.reference balanced declared (ih complete)
      simpa using whole

end Inserts

end Inserts

namespace Derives

variable {part : Part} {text rest : List Char} {choices others patterns : List Pattern}

theorem complete (derived : Derives part text patterns) : Complete text := by
  induction derived with
  | symbol free =>
      apply complete_singleton
      rintro rfl
      exact free (by decide)
  | nothing => exact complete_singleton (by decide)
  | escape char => exact complete_escape char
  | @group text choices inner ih =>
      have closed : Complete ('(' :: text ++ [')']) := complete_concat (by decide)
      exact closed
  | empty => exact complete_nil
  | plain first later unstarred ihFirst ihLater => exact ihFirst.append ihLater
  | starred first later ihFirst ihLater =>
      have star : Complete ['*'] := complete_singleton (by decide)
      exact ihFirst.append (star.append ihLater)
  | last only ih => exact ih
  | more first later ihFirst ihLater =>
      have bar : Complete ['|'] := complete_singleton (by decide)
      exact ihFirst.append (bar.append ihLater)

theorem choices_append (first : Derives .choices text choices)
    (second : Derives .choices rest others) :
    Derives .choices (text ++ '|' :: rest) (choices ++ others) := by
  generalize whole : Part.choices = part at first
  induction first with
  | last only => exact .more only second
  | more earlier later _ ih =>
      rw [List.append_assoc, List.cons_append, List.cons_append]
      exact .more earlier (ih rfl)
  | _ => cases whole

end Derives

theorem Pattern.language_choice_append (choices others : List Pattern) :
    (Pattern.choice (choices ++ others)).language =
      (Pattern.choice choices).language + (Pattern.choice others).language := by
  induction choices with
  | nil => rw [language_choice_nil, List.nil_append, zero_add]
  | cons first choices ih =>
      rw [List.cons_append, language_choice_cons, language_choice_cons, ih, add_assoc]

/-- With the bodies of its definitions put in the text is a pattern of this language. -/
def Expresses (table : DefinitionTable) (text : List Char) (language : Language Char) : Prop :=
  ∃ out choices, Inserts table text out ∧ Derives .choices out choices ∧
    (Pattern.ofChoices choices).language = language

def ExpressesAtom (table : DefinitionTable) (text : List Char) (language : Language Char) : Prop :=
  ∃ out atom, Complete text ∧ Inserts table text out ∧ Derives .atom out [atom] ∧
    atom.language = language

section Compose

variable {table : DefinitionTable} {text other : List Char} {language later : Language Char}

theorem Expresses.complete (expresses : Expresses table text language) : Complete text := by
  obtain ⟨out, choices, inserts, derived, -⟩ := expresses
  exact inserts.complete_iff.mp derived.complete

theorem Expresses.group (expresses : Expresses table text language) :
    ExpressesAtom table ('(' :: (text ++ [')'])) language := by
  have complete := expresses.complete
  obtain ⟨out, choices, inserts, derived, means⟩ := expresses
  have closing : Inserts table [')'] [')'] := .char (by decide) (by decide) .empty
  have inserted : Inserts table ('(' :: (text ++ [')'])) ('(' :: (out ++ [')'])) :=
    .char (by decide) (by decide) (inserts.append complete closing)
  have closed : Complete ('(' :: text ++ [')']) := complete_concat (by decide)
  exact ⟨_, _, closed, inserted, .group derived, means⟩

theorem Expresses.choice (first : Expresses table text language)
    (second : Expresses table other later) :
    Expresses table (text ++ '|' :: other) (language + later) := by
  have complete := first.complete
  obtain ⟨out, choices, inserts, derived, rfl⟩ := first
  obtain ⟨behind, others, also, derivedLater, rfl⟩ := second
  have bar : Inserts table ('|' :: other) ('|' :: behind) := .char (by decide) (by decide) also
  refine ⟨_, _, inserts.append complete bar, derived.choices_append derivedLater, ?_⟩
  rw [Pattern.language_ofChoices, Pattern.language_ofChoices, Pattern.language_ofChoices,
    Pattern.language_choice_append]

theorem Expresses.of_sequence {out : List Char} {items : List Pattern}
    (inserts : Inserts table text out) (derived : Derives .sequence out items) :
    Expresses table text (Pattern.sequence items).language :=
  ⟨out, [.sequence items], inserts, .last derived, rfl⟩

namespace ExpressesAtom

theorem alone (atom : ExpressesAtom table text language) : Expresses table text language := by
  obtain ⟨out, pattern, -, inserts, derived, rfl⟩ := atom
  have single : Derives .sequence (out ++ []) [pattern] := .plain derived .empty (by simp)
  rw [List.append_nil] at single
  have whole := Expresses.of_sequence inserts single
  rwa [Pattern.language_sequence_cons, Pattern.language_sequence_nil, mul_one] at whole

open scoped Computability in
theorem star (atom : ExpressesAtom table text language) :
    Expresses table (text ++ ['*']) language∗ := by
  obtain ⟨out, pattern, complete, inserts, derived, rfl⟩ := atom
  have starred : Inserts table ['*'] ['*'] := .char (by decide) (by decide) .empty
  have whole := Expresses.of_sequence (inserts.append complete starred)
    (.starred derived .empty)
  rwa [Pattern.language_sequence_cons, Pattern.language_sequence_nil, mul_one,
    Pattern.language_star] at whole

theorem append (first : ExpressesAtom table text language)
    (second : ExpressesAtom table ('(' :: other) later) :
    Expresses table (text ++ '(' :: other) (language * later) := by
  -- The second atom does not begin with a star, which would repeat the first.
  obtain ⟨out, pattern, complete, inserts, derived, rfl⟩ := first
  obtain ⟨behind, next, -, also, derivedLater, rfl⟩ := second
  have apart : (behind ++ []).head? ≠ some '*' := by
    cases also with
    | char _ _ more => simp
  have sequence := Derives.plain derived (.plain derivedLater .empty (by simp)) apart
  rw [List.append_nil] at sequence
  have whole := Expresses.of_sequence (inserts.append complete also) sequence
  rwa [Pattern.language_sequence_cons, Pattern.language_sequence_cons,
    Pattern.language_sequence_nil, mul_one] at whole

end ExpressesAtom

end Compose

namespace Graph

variable {graph one two oneLater twoLater later : Graph} {first second fragment : Fragment}
  {text p q : String} {language : Language Char}

theorem expresses_of_compile (compiled : graph.compile text = (later, .ok fragment)) :
    ∃ language, Expresses graph.definitions text.toList language ∧
      ∀ word, fragment.accepts later word = true ↔ word ∈ language := by
  obtain ⟨normalized, pattern, substituted, read, added⟩ := compile_eq_ok compiled
  obtain ⟨choices, derived, rfl⟩ := read_eq_ok_iff.mp read
  refine ⟨_, ⟨_, choices, inserts_of_substitute substituted, derived, rfl⟩, fun word => ?_⟩
  have accepts := graph.addPattern_accepts_iff (Pattern.ofChoices choices) word
  rwa [← added] at accepts

/-- The text compiles, to a fragment that accepts these words. -/
def CompilesTo (graph : Graph) (text : String) (words : List Char → Prop) : Prop :=
  ∃ later fragment, graph.compile text = (later, .ok fragment) ∧
    ∀ word, fragment.accepts later word = true ↔ words word

theorem compilesTo_of_expresses (expresses : Expresses graph.definitions text.toList language) :
    graph.CompilesTo text (· ∈ language) := by
  obtain ⟨out, choices, inserts, derived, rfl⟩ := expresses
  have read : Pattern.read (String.ofList out) = .ok (Pattern.ofChoices choices) := by
    apply read_of_derives
    rwa [String.toList_ofList]
  exact ⟨_, _, compile_of_read inserts.substitute read, graph.addPattern_accepts_iff _⟩

theorem CompilesTo.congr {words others : List Char → Prop} (compiles : graph.CompilesTo text words)
    (same : ∀ word, words word ↔ others word) : graph.CompilesTo text others := by
  obtain ⟨later, fragment, compiled, accepts⟩ := compiles
  exact ⟨later, fragment, compiled, fun word => (accepts word).trans (same word)⟩

open scoped Computability in
/--
Texts that compile can be grouped, repeated, put in sequence and offered as choices, in any graph
with the same definitions, and each of these accepts what the operation makes of the words that
the texts accept.
-/
theorem compile_composes (compiledFirst : one.compile p = (oneLater, .ok first))
    (compiledSecond : two.compile q = (twoLater, .ok second))
    (same : two.definitions = one.definitions) (bound : graph.definitions = one.definitions) :
    (graph.CompilesTo ("(" ++ p ++ ")") fun word => first.accepts oneLater word = true) ∧
    (graph.CompilesTo ("(" ++ p ++ ")*") fun word => ∃ parts : List (List Char),
      word = parts.flatten ∧ ∀ part ∈ parts, first.accepts oneLater part = true) ∧
    (graph.CompilesTo ("(" ++ p ++ ")(" ++ q ++ ")") fun word => ∃ front back,
      word = front ++ back ∧ first.accepts oneLater front = true ∧
        second.accepts twoLater back = true) ∧
    (graph.CompilesTo (p ++ "|" ++ q) fun word =>
      first.accepts oneLater word = true ∨ second.accepts twoLater word = true) ∧
    graph.CompilesTo ("(" ++ p ++ ")|(" ++ q ++ ")") fun word =>
      first.accepts oneLater word = true ∨ second.accepts twoLater word = true := by
  obtain ⟨language, means, accepts⟩ := expresses_of_compile compiledFirst
  obtain ⟨others, meansOthers, acceptsOthers⟩ := expresses_of_compile compiledSecond
  rw [← bound] at means
  rw [same, ← bound] at meansOthers
  refine ⟨?group, ?star, ?sequence, ?choice, ?groups⟩
  case group =>
    have whole : Expresses graph.definitions ("(" ++ p ++ ")").toList language := by
      simpa using means.group.alone
    exact (compilesTo_of_expresses whole).congr fun word => (accepts word).symm
  case star =>
    have whole : Expresses graph.definitions ("(" ++ p ++ ")*").toList language∗ := by
      simpa using means.group.star
    refine (compilesTo_of_expresses whole).congr fun word => ?_
    simp only [Language.mem_kstar, accepts]
  case sequence =>
    have whole : Expresses graph.definitions ("(" ++ p ++ ")(" ++ q ++ ")").toList
        (language * others) := by
      simpa using means.group.append meansOthers.group
    refine (compilesTo_of_expresses whole).congr fun word => ?_
    simp only [Language.mem_mul, accepts, acceptsOthers]
    constructor
    · rintro ⟨front, inFirst, back, inSecond, rfl⟩
      exact ⟨front, back, rfl, inFirst, inSecond⟩
    · rintro ⟨front, back, rfl, inFirst, inSecond⟩
      exact ⟨front, inFirst, back, inSecond, rfl⟩
  case choice =>
    have whole : Expresses graph.definitions (p ++ "|" ++ q).toList (language + others) := by
      simpa using means.choice meansOthers
    refine (compilesTo_of_expresses whole).congr fun word => ?_
    simp only [Language.mem_add, accepts, acceptsOthers]
  case groups =>
    have whole : Expresses graph.definitions ("(" ++ p ++ ")|(" ++ q ++ ")").toList
        (language + others) := by
      simpa using means.group.alone.choice meansOthers.group.alone
    refine (compilesTo_of_expresses whole).congr fun word => ?_
    simp only [Language.mem_add, accepts, acceptsOthers]

def withLeaf : Graph where
  definitions := ⟨[("Leaf", "a\\")]⟩

def afterLeaf : Graph := (withLeaf.compile "\x7bLeaf\x7d)").1

theorem compile_composes_leaf :
    ∃ later fragment, withLeaf.compile "(\x7bLeaf\x7d))(*\\(|)" = (later, .ok fragment) ∧
      fragment.accepts later ['a', ')', '*', '('] = true ∧
        fragment.accepts later ['a', ')'] = true := by
  have laid : (withLeaf.compile "\x7bLeaf\x7d)").2 = .ok ⟨0, 1⟩ := by cbv
  have laidNext : (afterLeaf.compile "*\\(|").2 = .ok ⟨8, 9⟩ := by cbv
  have leaf : Fragment.accepts afterLeaf ⟨0, 1⟩ ['a', ')'] = true := by cbv
  have star : Fragment.accepts (afterLeaf.compile "*\\(|").1 ⟨8, 9⟩ ['*', '('] = true := by cbv
  have none : Fragment.accepts (afterLeaf.compile "*\\(|").1 ⟨8, 9⟩ [] = true := by cbv
  have same : afterLeaf.definitions = withLeaf.definitions := by cbv
  obtain ⟨-, -, ⟨later, fragment, compiled, accepts⟩, -, -⟩ :=
    compile_composes (Prod.ext rfl laid) (Prod.ext rfl laidNext) same rfl
  refine ⟨later, fragment, compiled, (accepts _).mpr ?_, (accepts _).mpr ?_⟩
  · exact ⟨['a', ')'], ['*', '('], rfl, leaf, star⟩
  · exact ⟨['a', ')'], [], rfl, leaf, none⟩

end Graph

end MaximalMunch
