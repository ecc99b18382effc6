import MaximalMunch.Proofs.FullExpansion
import MaximalMunch.Proofs.PatternFaults

/-!
Expanding references is compositional. With references for atoms, each of the meaning of its
definition, the grammar takes a text if and only if the expanded text compiles, and gives it the
words that are then accepted.
-/

namespace MaximalMunch

open scoped Computability

/--
The text is such a part of a pattern and denotes the language, where a reference is one atom and
denotes what its name means.
-/
inductive Denotes (meaning : String → Option (Language Char)) :
    Part → List Char → Language Char → Prop
  | symbol {char : Char} (free : char ∉ '\x7b' :: reserved) :
      Denotes meaning .atom [char] {[char]}
  | nothing : Denotes meaning .atom ['$'] 1
  | escape (char : Char) : Denotes meaning .atom ['\\', char] {[Glyph.unescape char]}
  | reference {name : List Char} {language : Language Char}
      (balanced : Brackets.curly.Balanced name)
      (declared : meaning (String.ofList name) = some language) :
      Denotes meaning .atom ('\x7b' :: (name ++ ['\x7d'])) language
  | group {text : List Char} {language : Language Char}
      (inner : Denotes meaning .choices text language) :
      Denotes meaning .atom ('(' :: (text ++ [')'])) language
  | empty : Denotes meaning .sequence [] 1
  | plain {text rest : List Char} {first others : Language Char}
      (atom : Denotes meaning .atom text first) (later : Denotes meaning .sequence rest others)
      (unstarred : rest.head? ≠ some '*') :
      Denotes meaning .sequence (text ++ rest) (first * others)
  | starred {text rest : List Char} {first others : Language Char}
      (atom : Denotes meaning .atom text first) (later : Denotes meaning .sequence rest others) :
      Denotes meaning .sequence (text ++ '*' :: rest) (first∗ * others)
  | last {text : List Char} {language : Language Char}
      (only : Denotes meaning .sequence text language) : Denotes meaning .choices text language
  | more {text rest : List Char} {first others : Language Char}
      (sequence : Denotes meaning .sequence text first)
      (later : Denotes meaning .choices rest others) :
      Denotes meaning .choices (text ++ '|' :: rest) (first + others)

/-- A declared name means the language of its body. -/
def DefinitionTable.meaning (table : DefinitionTable) (name : String) : Option (Language Char) :=
  (table.get? name).map fun body => textLanguage body.toList

/-- The bodies are patterns without references. -/
def DefinitionTable.Flat (table : DefinitionTable) : Prop :=
  ∀ name body, table.get? name = some body → Settled body.toList ∧
    ∃ choices, Derives .choices body.toList choices

/-- Whatever stands behind the text, expanding puts the image in its place. -/
def Replaces (table : DefinitionTable) (text image : List Char) : Prop :=
  ∀ position rest later,
    Expands table (Piece.ofGlyphs (position + text.length) (Glyph.ofChars rest)) later →
      Expands table (Piece.ofGlyphs position (Glyph.ofChars (text ++ rest))) (image ++ later)

section Replaces

variable {table : DefinitionTable} {text rest image others : List Char}

theorem replaces_nil : Replaces table [] [] := fun _ _ _ expands => expands

theorem Replaces.append (first : Replaces table text image) (second : Replaces table rest others) :
    Replaces table (text ++ rest) (image ++ others) := by
  intro position behind later expands
  rw [List.length_append, ← Nat.add_assoc] at expands
  rw [List.append_assoc, List.append_assoc]
  exact first _ _ _ (second _ _ _ expands)

theorem replaces_plain {char : Char} (noEscape : char ≠ '\\') (noBrace : char ≠ '\x7b') :
    Replaces table [char] [char] := by
  intro position rest later expands
  rw [List.singleton_append, Piece.ofGlyphs_plain position noEscape noBrace]
  exact .kept expands

theorem replaces_escape (char : Char) : Replaces table ['\\', char] ['\\', char] := by
  intro position rest later expands
  rw [List.cons_append, List.singleton_append, Piece.ofGlyphs_escape]
  exact .kept expands

theorem replaces_reference {name : List Char} {body : String}
    (balanced : Brackets.curly.Balanced name)
    (declared : table.get? (String.ofList name) = some body) (settled : Settled body.toList) :
    Replaces table ('\x7b' :: (name ++ ['\x7d'])) ('(' :: (body.toList ++ [')'])) := by
  intro position rest later expands
  have inner : Expands table (Piece.ofText body) body.toList :=
    Expands.iff_unfolds.mpr (.of_settled settled (Nat.zero_le _))
  have shape : '\x7b' :: (name ++ ['\x7d']) ++ rest = '\x7b' :: (name ++ '\x7d' :: rest) := by simp
  have place : position + ('\x7b' :: (name ++ ['\x7d'])).length = position + name.length + 2 := by
    simp
    omega
  rw [place] at expands
  rw [shape, Piece.ofGlyphs_reference position balanced]
  have whole := Expands.reference declared inner expands
  simpa using whole

end Replaces

def Part.language : Part → List Pattern → Language Char
  | .sequence, patterns => (Pattern.sequence patterns).language
  | .atom, patterns | .choices, patterns => (Pattern.choice patterns).language

/-- What the text expands to is the same part of a pattern and has this language. -/
def Mirrors (table : DefinitionTable) (part : Part) (text : List Char)
    (language : Language Char) : Prop :=
  ∃ image patterns, Replaces table text image ∧ Derives part image patterns ∧
    part.language patterns = language ∧ (image.head? = some '*' → text.head? = some '*')

theorem Derives.exists_eq_singleton {text : List Char} {patterns : List Pattern}
    (derived : Derives .atom text patterns) : ∃ atom, patterns = [atom] := by
  cases derived <;> exact ⟨_, rfl⟩

@[simp]
theorem language_singleton (pattern : Pattern) :
    (Pattern.choice [pattern]).language = pattern.language := by
  rw [Pattern.language_choice_cons, Pattern.language_choice_nil, add_zero]

section Mirrors

variable {table : DefinitionTable} {text rest image : List Char}
  {first others language : Language Char}

theorem star_append (star : image.head? = some '*' → text.head? = some '*') (present : image ≠ [])
    {behind : List Char} (same : (image ++ behind).head? = some '*') :
    (text ++ rest).head? = some '*' := by
  rw [List.head?_append_of_ne_nil _ present] at same
  rw [List.head?_append, star same]
  rfl

theorem mirrors_symbol {char : Char} (free : char ∉ '\x7b' :: reserved) :
    Mirrors table .atom [char] {[char]} := by
  have noBrace : char ≠ '\x7b' := List.ne_of_not_mem_cons free
  have noEscape : char ≠ '\\' := fun same => free (by simp [same, reserved])
  have derived : Derives .atom [char] [.symbol char] :=
    .symbol (List.not_mem_of_not_mem_cons free)
  refine ⟨_, _, replaces_plain noEscape noBrace, derived, ?_, id⟩
  rw [Part.language, language_singleton, Pattern.language_symbol]

theorem mirrors_nothing : Mirrors table .atom ['$'] 1 := by
  refine ⟨_, _, replaces_plain (by decide) (by decide), .nothing, ?_, id⟩
  rw [Part.language, language_singleton, Pattern.language_nothing]

theorem mirrors_escape (char : Char) :
    Mirrors table .atom ['\\', char] {[Glyph.unescape char]} := by
  refine ⟨_, _, replaces_escape char, .escape char, ?_, id⟩
  rw [Part.language, language_singleton, Pattern.language_symbol]

theorem textLanguage_eq {content : String} {choices : List Pattern}
    (derived : Derives .choices content.toList choices) :
    textLanguage content.toList = (Pattern.choice choices).language := by
  rw [← Pattern.language_ofChoices]
  exact Set.ext (mem_textLanguage_iff (read_of_derives derived))

theorem mirrors_reference {name : List Char} (flat : table.Flat)
    (balanced : Brackets.curly.Balanced name)
    (declared : table.meaning (String.ofList name) = some language) :
    Mirrors table .atom ('\x7b' :: (name ++ ['\x7d'])) language := by
  obtain ⟨body, found, rfl⟩ := Option.map_eq_some_iff.mp declared
  obtain ⟨settled, choices, derived⟩ := flat _ _ found
  refine ⟨_, _, replaces_reference balanced found settled, .group derived, ?_, by simp⟩
  rw [Part.language, language_singleton, Pattern.language_ofChoices, textLanguage_eq derived]

theorem mirrors_group (inner : Mirrors table .choices text language) :
    Mirrors table .atom ('(' :: (text ++ [')'])) language := by
  obtain ⟨image, choices, replaces, derived, rfl, -⟩ := inner
  have closing := replaces.append (replaces_plain (by decide : ')' ≠ '\\') (by decide))
  have whole := (replaces_plain (by decide : '(' ≠ '\\') (by decide)).append closing
  refine ⟨_, _, whole, .group derived, ?_, by simp⟩
  rw [Part.language, language_singleton, Pattern.language_ofChoices, Part.language]

theorem mirrors_plain (atom : Mirrors table .atom text first)
    (later : Mirrors table .sequence rest others) (unstarred : rest.head? ≠ some '*') :
    Mirrors table .sequence (text ++ rest) (first * others) := by
  obtain ⟨image, patterns, replaces, derived, rfl, star⟩ := atom
  obtain ⟨behind, items, replacesLater, derivedLater, rfl, starLater⟩ := later
  obtain ⟨pattern, rfl⟩ := derived.exists_eq_singleton
  have unstarredImage : behind.head? ≠ some '*' := fun same => unstarred (starLater same)
  refine ⟨_, _, replaces.append replacesLater, .plain derived derivedLater unstarredImage, ?_,
    star_append star (derived.atom_ne_nil rfl)⟩
  rw [Part.language, Part.language, Part.language, Pattern.language_sequence_cons,
    language_singleton]

theorem mirrors_starred (atom : Mirrors table .atom text first)
    (later : Mirrors table .sequence rest others) :
    Mirrors table .sequence (text ++ '*' :: rest) (first∗ * others) := by
  obtain ⟨image, patterns, replaces, derived, rfl, star⟩ := atom
  obtain ⟨behind, items, replacesLater, derivedLater, rfl, -⟩ := later
  obtain ⟨pattern, rfl⟩ := derived.exists_eq_singleton
  have starring := (replaces_plain (by decide : '*' ≠ '\\') (by decide)).append replacesLater
  refine ⟨_, _, replaces.append starring, .starred derived derivedLater, ?_,
    star_append star (derived.atom_ne_nil rfl)⟩
  rw [Part.language, Part.language, Part.language, Pattern.language_sequence_cons,
    Pattern.language_star, language_singleton]

theorem mirrors_last (only : Mirrors table .sequence text language) :
    Mirrors table .choices text language := by
  obtain ⟨image, items, replaces, derived, rfl, star⟩ := only
  refine ⟨image, _, replaces, .last derived, ?_, star⟩
  rw [Part.language, Part.language, language_singleton]

theorem mirrors_more (sequence : Mirrors table .sequence text first)
    (later : Mirrors table .choices rest others) :
    Mirrors table .choices (text ++ '|' :: rest) (first + others) := by
  obtain ⟨image, items, replaces, derived, rfl, star⟩ := sequence
  obtain ⟨behind, choices, replacesLater, derivedLater, rfl, -⟩ := later
  have parting := (replaces_plain (by decide : '|' ≠ '\\') (by decide)).append replacesLater
  refine ⟨_, _, replaces.append parting, .more derived derivedLater, ?_, ?_⟩
  · rw [Part.language, Part.language, Part.language, Pattern.language_choice_cons]
  · intro same
    cases image with
    | nil => simp at same
    | cons char image => exact star_append star (List.cons_ne_nil _ _) same

theorem Denotes.mirrors {part : Part} (flat : table.Flat)
    (denotes : Denotes table.meaning part text language) : Mirrors table part text language := by
  induction denotes with
  | symbol free => exact mirrors_symbol free
  | nothing => exact mirrors_nothing
  | escape char => exact mirrors_escape char
  | reference balanced declared => exact mirrors_reference flat balanced declared
  | group inner ih => exact mirrors_group ih
  | empty =>
      exact ⟨_, _, replaces_nil, .empty, Pattern.language_sequence_nil, id⟩
  | plain atom later unstarred ihAtom ih => exact mirrors_plain ihAtom ih unstarred
  | starred atom later ihAtom ih => exact mirrors_starred ihAtom ih
  | last only ih => exact mirrors_last ih
  | more sequence later ihSequence ih => exact mirrors_more ihSequence ih

end Mirrors

/-- The text is a pattern, also without a star in front of it. -/
structure Meant (meaning : String → Option (Language Char)) (text : List Char) : Prop where
  whole : ∃ language, Denotes meaning .choices text language
  behind : ∀ rest, text = '*' :: rest → ∃ language, Denotes meaning .choices rest language

section Meant

variable {meaning : String → Option (Language Char)} {text rest : List Char}
  {first others language : Language Char}

theorem Denotes.atom_ne_nil (atom : Denotes meaning .atom text language) : text ≠ [] := by
  cases atom <;> simp

theorem Denotes.prepend (atom : Denotes meaning .atom text first)
    (unstarred : rest.head? ≠ some '*') (later : Denotes meaning .choices rest others) :
    ∃ language, Denotes meaning .choices (text ++ rest) language := by
  cases later with
  | last only => exact ⟨_, .last (.plain atom only unstarred)⟩
  | @more front back _ _ sequence later =>
      have unstarredFront : front.head? ≠ some '*' := by
        intro same
        rw [List.head?_append, same] at unstarred
        exact unstarred rfl
      rw [← List.append_assoc]
      exact ⟨_, .more (.plain atom sequence unstarredFront) later⟩

theorem Denotes.prepend_starred (atom : Denotes meaning .atom text first)
    (later : Denotes meaning .choices rest others) :
    ∃ language, Denotes meaning .choices (text ++ '*' :: rest) language := by
  cases later with
  | last only => exact ⟨_, .last (.starred atom only)⟩
  | @more front back _ _ sequence later =>
      have shape : text ++ '*' :: (front ++ '|' :: back) =
          (text ++ '*' :: front) ++ '|' :: back := by simp
      rw [shape]
      exact ⟨_, .more (.starred atom sequence) later⟩

theorem Denotes.before (atom : Denotes meaning .atom text language) (later : Meant meaning rest) :
    ∃ whole, Denotes meaning .choices (text ++ rest) whole := by
  by_cases star : rest.head? = some '*'
  · obtain ⟨behind, rfl⟩ := List.head?_eq_some_iff.mp star
    obtain ⟨others, denotes⟩ := later.behind behind rfl
    exact atom.prepend_starred denotes
  · obtain ⟨others, denotes⟩ := later.whole
    exact atom.prepend star denotes

theorem meant_nil : Meant meaning [] := ⟨⟨_, .last .empty⟩, nofun⟩

theorem Meant.atom (later : Meant meaning rest) (atom : Denotes meaning .atom text language)
    (noStar : text.head? ≠ some '*') : Meant meaning (text ++ rest) := by
  refine ⟨atom.before later, fun behind same => ?_⟩
  have head : (text ++ rest).head? = text.head? := List.head?_append_of_ne_nil _ atom.atom_ne_nil
  rw [← head, same] at noStar
  exact absurd rfl noStar

theorem Meant.star (later : Meant meaning rest) : Meant meaning ('*' :: rest) := by
  have atom : Denotes meaning .atom ['*'] {['*']} := .symbol (by decide)
  refine ⟨atom.before later, fun behind same => ?_⟩
  cases same
  exact later.whole

theorem Meant.bar (later : Meant meaning rest) : Meant meaning ('|' :: rest) := by
  obtain ⟨language, denotes⟩ := later.whole
  exact ⟨⟨_, .more .empty denotes⟩, by simp⟩

theorem Meant.plain {char : Char} (free : char ∉ ['\\', '(', ')']) (noBrace : char ≠ '\x7b')
    (later : Meant meaning rest) : Meant meaning (char :: rest) := by
  by_cases star : char = '*'
  · exact star ▸ later.star
  by_cases bar : char = '|'
  · exact bar ▸ later.bar
  by_cases dollar : char = '$'
  · exact dollar ▸ later.atom .nothing (by decide)
  · have symbol : char ∉ '\x7b' :: reserved := by
      simp only [List.mem_cons, List.not_mem_nil, or_false, not_or] at free
      simp [reserved, free, noBrace, bar, dollar]
    exact later.atom (.symbol symbol) (by simp [star])

end Meant

/-- The text closes so many groups that were opened before it. -/
def Nested (meaning : String → Option (Language Char)) : Nat → List Char → Prop
  | 0, text => Meant meaning text
  | depth + 1, text => ∃ inside rest, text = inside ++ ')' :: rest ∧ Meant meaning inside ∧
      Nested meaning depth rest

theorem Nested.prepend {meaning : String → Option (Language Char)} {depth : Nat}
    {front text : List Char} (before : ∀ rest, Meant meaning rest → Meant meaning (front ++ rest))
    (nested : Nested meaning depth text) : Nested meaning depth (front ++ text) := by
  cases depth with
  | zero => exact before text nested
  | succ depth =>
      obtain ⟨inside, rest, rfl, meant, outer⟩ := nested
      exact ⟨front ++ inside, rest, by simp, before inside meant, outer⟩

theorem Nested.opening {meaning : String → Option (Language Char)} {depth : Nat} {text : List Char}
    (nested : Nested meaning (depth + 1) text) : Nested meaning depth ('(' :: text) := by
  obtain ⟨inside, rest, rfl, meant, outer⟩ := nested
  obtain ⟨language, denotes⟩ := meant.whole
  have shape : '(' :: (inside ++ ')' :: rest) = '(' :: (inside ++ [')']) ++ rest := by simp
  rw [shape]
  exact outer.prepend fun _ later => later.atom (.group denotes) (by simp)

section Reading

variable {table : DefinitionTable} {text image : List Char} {pattern : Pattern} {level : Level}
  {enclosing : List (Nat × Level)}

theorem finish_eq_ok {whole : Except Draft Pattern}
    (finished : Pattern.finish enclosing whole = .ok pattern) :
    enclosing = [] ∧ whole = .ok pattern := by
  unfold Pattern.finish at finished
  split at finished
  case h_1 outside => exact ⟨List.getLast?_eq_none_iff.mp outside, finished⟩
  case h_2 => cases finished

/-- A text whose expansion is read is itself a pattern, with the same groups open before it. -/
theorem nested_of_readFrom (flat : table.Flat) {position place : Nat}
    (expands : Expands table (Piece.ofGlyphs position (Glyph.ofChars text)) image)
    (read : Pattern.readFrom place level enclosing (Glyph.ofChars image) = .ok pattern) :
    Nested table.meaning enclosing.length text := by
  induction text using reference_induction generalizing position image place level enclosing with
  | empty =>
      rw [Glyph.ofChars, Piece.ofGlyphs, Expands.nil_iff] at expands
      subst expands
      rw [Glyph.ofChars, Pattern.readFrom] at read
      obtain ⟨rfl, -⟩ := finish_eq_ok read
      exact meant_nil
  | dangling =>
      rw [Piece.ofGlyphs_dangling, Expands.kept_iff] at expands
      obtain ⟨later, ends, rfl⟩ := expands
      rw [Expands.nil_iff.mp ends] at read
      cases (finish_eq_ok read).2
  | escape char rest ih =>
      rw [Piece.ofGlyphs_escape, Expands.kept_iff] at expands
      obtain ⟨later, expands, rfl⟩ := expands
      have readLater := (Pattern.readFrom_escaped char _).symm.trans read
      exact (ih expands readLater).prepend fun _ meant => meant.atom (.escape char) (by simp)
  | plain char rest noEscape noBrace ih =>
      rw [Piece.ofGlyphs_plain _ noEscape noBrace, Expands.kept_iff] at expands
      obtain ⟨later, expands, rfl⟩ := expands
      rw [Glyph.chars, List.singleton_append, Glyph.ofChars_plain _ noEscape] at read
      by_cases opening : char = '('
      · subst opening
        rw [Pattern.readFrom_opening] at read
        exact (ih expands read).opening
      by_cases closing : char = ')'
      · subst closing
        cases enclosing with
        | nil => simp [Pattern.readFrom] at read
        | cons outer enclosing =>
            rw [Pattern.readFrom_closing] at read
            exact ⟨[], rest, rfl, meant_nil, ih expands read⟩
      · have free : char ∉ ['\\', '(', ')'] := by simp [*]
        obtain ⟨next, readPlain⟩ :=
          Pattern.readFrom_plain free place level enclosing (Glyph.ofChars later)
        rw [readPlain] at read
        show Nested table.meaning enclosing.length ([char] ++ rest)
        exact (ih expands read).prepend fun _ meant => meant.plain free noBrace
  | unended rest never =>
      rw [Piece.ofGlyphs_unended _ never] at expands
      cases expands
  | reference name rest balanced ih =>
      rw [Piece.ofGlyphs_reference _ balanced, Expands.reference_iff] at expands
      obtain ⟨body, inner, later, declared, full, expands, rfl⟩ := expands
      obtain ⟨settled, choices, derived⟩ := flat _ _ declared
      have same : inner = body.toList :=
        full.unique (Expands.iff_unfolds.mpr (.of_settled settled (Nat.zero_le _)))
      have group : Brackets.round.Balanced ('(' :: inner ++ [')']) := by
        rw [same, List.cons_append]
        exact (Derives.group derived).balanced
      obtain ⟨next, readGroup⟩ := Pattern.readFrom_balanced group place level enclosing later
      rw [readGroup] at read
      have meant : table.meaning (String.ofList name) = some (textLanguage body.toList) := by
        rw [DefinitionTable.meaning, declared, Option.map_some]
      have shape : '\x7b' :: (name ++ '\x7d' :: rest) = '\x7b' :: (name ++ ['\x7d']) ++ rest := by
        simp
      rw [shape]
      exact (ih expands read).prepend fun _ later =>
        later.atom (.reference balanced meant) (by simp)

end Reading

namespace DefinitionTable

variable {table resolved : DefinitionTable}

theorem flat_of_compile (resolves : table.resolve = .ok resolved)
    (compiles : ∀ entry ∈ resolved.entries, ∃ later fragment,
      ({} : Graph).compile entry.2 = (later, .ok fragment)) : resolved.Flat := by
  intro name body found
  obtain ⟨before, after, split, -⟩ := List.lookup_eq_some_iff.mp found
  have member : (name, body) ∈ resolved.entries := by simp [split]
  have settled : Settled body.toList := settled_of_resolve resolves _ member
  obtain ⟨later, fragment, compiled⟩ := compiles _ member
  obtain ⟨normalized, pattern, substituted, read, -⟩ := Graph.compile_eq_ok compiled
  have empty : ({} : DefinitionTable).resolve = .ok {} := rfl
  have same := (substitute_of_settled empty settled).symm.trans substituted
  cases same
  obtain ⟨choices, derived, -⟩ := read_eq_ok_iff.mp read
  exact ⟨settled, choices, derived⟩

theorem substitute_iff_expands (resolves : table.resolve = .ok resolved) {text expanded : String} :
    resolved.substitute text = .ok expanded ↔
      Expands resolved (Piece.ofText text) expanded.toList := by
  have again : resolved.resolve = .ok resolved :=
    resolve_of_settled (nodup_names_of_resolve resolves) (settled_of_resolve resolves)
  rw [substitute_eq_ok_iff again, Expands.iff_unfolds]

end DefinitionTable

namespace Graph

variable {table resolved : DefinitionTable} {graph later : Graph} {text : String}
  {fragment : Fragment} {language : Language Char}

theorem compile_of_denotes (resolves : table.resolve = .ok resolved) (flat : resolved.Flat)
    (bound : graph.definitions = resolved)
    (denotes : Denotes resolved.meaning .choices text.toList language) :
    ∃ pattern, graph.compile text =
        ((graph.addPattern pattern).1, .ok (graph.addPattern pattern).2) ∧
      pattern.language = language := by
  obtain ⟨image, choices, replaces, derived, rfl, -⟩ := denotes.mirrors flat
  have expands : Expands resolved (Piece.ofText text) (String.ofList image).toList := by
    have whole := replaces 0 [] [] (by rw [Glyph.ofChars, Piece.ofGlyphs]; exact .nil)
    rw [List.append_nil, List.append_nil] at whole
    rw [String.toList_ofList]
    exact whole
  have substituted : graph.definitions.substitute text = .ok (String.ofList image) := by
    rw [bound, DefinitionTable.substitute_iff_expands resolves]
    exact expands
  have read : Pattern.read (String.ofList image) = .ok (Pattern.ofChoices choices) := by
    apply read_of_derives
    rwa [String.toList_ofList]
  exact ⟨_, compile_of_read substituted read, Pattern.language_ofChoices choices⟩

theorem exists_denotes_of_compile (resolves : table.resolve = .ok resolved) (flat : resolved.Flat)
    (bound : graph.definitions = resolved) (compiled : graph.compile text = (later, .ok fragment)) :
    ∃ language, Denotes resolved.meaning .choices text.toList language := by
  obtain ⟨normalized, pattern, substituted, read, -⟩ := compile_eq_ok compiled
  rw [bound, DefinitionTable.substitute_iff_expands resolves] at substituted
  have meant : Nested resolved.meaning 0 text.toList := nested_of_readFrom flat substituted read
  exact meant.whole

/--
With a resolved table whose bodies compile alone, a text compiles if and only if it is a pattern
with its references for atoms, and the fragment accepts what the text then denotes.
-/
theorem compile_denotes (resolves : table.resolve = .ok resolved)
    (compiles : ∀ entry ∈ resolved.entries, ∃ later fragment,
      ({} : Graph).compile entry.2 = (later, .ok fragment))
    (bound : graph.definitions = resolved) (text : String) :
    ((∃ later fragment, graph.compile text = (later, .ok fragment)) ↔
      ∃ language, Denotes resolved.meaning .choices text.toList language) ∧
    ∀ later fragment language, graph.compile text = (later, .ok fragment) →
      Denotes resolved.meaning .choices text.toList language →
        ∀ word, fragment.accepts later word = true ↔ word ∈ language := by
  have flat : resolved.Flat := DefinitionTable.flat_of_compile resolves compiles
  refine ⟨⟨?_, ?_⟩, ?_⟩
  · rintro ⟨later, fragment, compiled⟩
    exact exists_denotes_of_compile resolves flat bound compiled
  · rintro ⟨language, denotes⟩
    obtain ⟨pattern, compiled, -⟩ := compile_of_denotes resolves flat bound denotes
    exact ⟨_, _, compiled⟩
  · intro later fragment language compiled denotes word
    obtain ⟨pattern, laid, rfl⟩ := compile_of_denotes resolves flat bound denotes
    obtain ⟨rfl, same⟩ := Prod.mk.inj (compiled.symm.trans laid)
    rw [Except.ok.inj same]
    exact addPattern_accepts_iff graph pattern word

def bits : DefinitionTable :=
  DefinitionTable.ofList [("Word", "\x7bBit\x7d\x7bBit\x7d*"), ("Bit", "0|1")]

def resolvedBits : DefinitionTable := ⟨[("Word", "(0|1)(0|1)*"), ("Bit", "0|1")]⟩

theorem compile_denotes_bits :
    bits.resolve = .ok resolvedBits ∧
      (∀ entry ∈ resolvedBits.entries, ∃ later fragment,
        ({} : Graph).compile entry.2 = (later, .ok fragment)) ∧
      ∃ language, Denotes resolvedBits.meaning .choices "a\x7bWord\x7d*".toList language ∧
        ∀ word, Fragment.accepts
            (({ definitions := resolvedBits } : Graph).compile "a\x7bWord\x7d*").1
              ⟨0, 1⟩ word = true ↔
          word ∈ language := by
  have resolves : bits.resolve = .ok resolvedBits := by cbv
  have compiles : ∀ entry ∈ resolvedBits.entries, ∃ later fragment,
      ({} : Graph).compile entry.2 = (later, .ok fragment) := by
    have word : (({} : Graph).compile "(0|1)(0|1)*").2 = .ok ⟨0, 1⟩ := by cbv
    have bit : (({} : Graph).compile "0|1").2 = .ok ⟨0, 1⟩ := by cbv
    intro entry member
    simp only [resolvedBits, List.mem_cons, List.not_mem_nil, or_false] at member
    obtain rfl | rfl := member
    · exact ⟨_, _, Prod.ext rfl word⟩
    · exact ⟨_, _, Prod.ext rfl bit⟩
  have done : (({ definitions := resolvedBits } : Graph).compile "a\x7bWord\x7d*").2 =
      .ok ⟨0, 1⟩ := by cbv
  have bound : ({ definitions := resolvedBits } : Graph).definitions = resolvedBits := rfl
  obtain ⟨formed, accepts⟩ := compile_denotes resolves compiles bound "a\x7bWord\x7d*"
  obtain ⟨language, denotes⟩ := formed.mp ⟨_, _, Prod.ext rfl done⟩
  exact ⟨resolves, compiles, language, denotes, accepts _ _ _ (Prod.ext rfl done) denotes⟩

end Graph

end MaximalMunch
