import MaximalMunch.Pattern.Reading
import MaximalMunch.Proofs.PatternLanguage

/-!
The grammar of pattern texts, and that reading accepts exactly the texts it derives. Choices are
separated by `|`, a choice is a sequence of items, and an item is an atom with at most one `*`
behind it.
-/

namespace MaximalMunch

/-- Characters that do not stand for themselves. -/
def reserved : List Char := ['\\', '(', ')', '|', '$']

inductive Part
  | atom
  | sequence
  | choices
  deriving DecidableEq, Repr

/--
The text is such a part of a pattern, and stands for these patterns: an atom for one, a sequence
for its items, choices for one sequence each.
-/
inductive Derives : Part → List Char → List Pattern → Prop
  | symbol {char : Char} (free : char ∉ reserved) : Derives .atom [char] [.symbol char]
  | nothing : Derives .atom ['$'] [.nothing]
  | escape (char : Char) : Derives .atom ['\\', char] [.symbol (Glyph.unescape char)]
  | group {text : List Char} {choices : List Pattern} (inner : Derives .choices text choices) :
      Derives .atom ('(' :: (text ++ [')'])) [Pattern.ofChoices choices]
  | empty : Derives .sequence [] []
  /-- A star behind an atom always repeats it, so it never begins the next item. -/
  | plain {text rest : List Char} {atom : Pattern} {items : List Pattern}
      (first : Derives .atom text [atom]) (later : Derives .sequence rest items)
      (unstarred : rest.head? ≠ some '*') :
      Derives .sequence (text ++ rest) (atom :: items)
  | starred {text rest : List Char} {atom : Pattern} {items : List Pattern}
      (first : Derives .atom text [atom]) (later : Derives .sequence rest items) :
      Derives .sequence (text ++ '*' :: rest) (.star atom :: items)
  | last {text : List Char} {items : List Pattern} (only : Derives .sequence text items) :
      Derives .choices text [.sequence items]
  | more {text rest : List Char} {items choices : List Pattern}
      (first : Derives .sequence text items) (later : Derives .choices rest choices) :
      Derives .choices (text ++ '|' :: rest) (.sequence items :: choices)

/-- The words a pattern text stands for. -/
def textLanguage (text : List Char) : Language Char :=
  {word | ∃ choices, Derives .choices text choices ∧ word ∈ (Pattern.ofChoices choices).language}

namespace Glyph

theorem ofChars_plain {char : Char} (rest : List Char) (free : char ≠ '\\') :
    ofChars (char :: rest) = .plain char :: ofChars rest := by
  rw [ofChars]
  · intro same
    exact absurd same free
  · intro _ _ same
    exact absurd same free

@[elab_as_elim]
theorem escape_induction {motive : List Char → Prop} (empty : motive [])
    (dangling : motive ['\\'])
    (escape : ∀ char rest, motive rest → motive ('\\' :: char :: rest))
    (plain : ∀ char rest, char ≠ '\\' → motive rest → motive (char :: rest))
    (text : List Char) : motive text := by
  fun_induction ofChars text with
  | case1 => exact empty
  | case2 => exact dangling
  | case3 char rest ih => exact escape char rest ih
  | case4 char rest notLast notEscape ih =>
      apply plain char rest _ ih
      intro backslash
      cases rest with
      | nil => exact notLast backslash rfl
      | cons next later => exact notEscape next later backslash rfl

end Glyph

namespace Level

/-- The latest item is an atom that a star would repeat. -/
def Open (level : Level) : Prop := level.repeatable = true ∧ level.items ≠ []

theorem star_of_open {level : Level} {item : Pattern} {items : List Pattern}
    (latest : level.items = item :: items) (repeatable : level.repeatable = true) :
    level.star = { level with items := .star item :: items, repeatable := false } := by
  simp [star, latest, repeatable]

theorem star_of_not_open {level : Level} (closed : ¬ level.Open) :
    level.star = level.push (.symbol '*') := by
  unfold star
  split
  case h_1 item items latest repeatable =>
    exact absurd ⟨repeatable, by simp [latest]⟩ closed
  case h_2 => rfl

theorem push_open (level : Level) (item : Pattern) : (level.push item).Open :=
  ⟨rfl, by simp [push]⟩

theorem close_eq (level : Level) :
    level.close =
      Pattern.ofChoices (level.choices.reverse ++ [.sequence level.items.reverse]) := by
  unfold close
  cases stored : level.choices with
  | nil => rfl
  | cons latest earlier =>
      have several : ∃ first second others,
          earlier.reverse ++ [latest] ++ [.sequence level.items.reverse] =
            first :: second :: others := by
        cases turned : earlier.reverse with
        | nil => exact ⟨_, _, _, rfl⟩
        | cons first others =>
            cases others with
            | nil => exact ⟨_, _, _, rfl⟩
            | cons => exact ⟨_, _, _, rfl⟩
      rcases several with ⟨first, second, others, shape⟩
      simp only [List.reverse_cons, shape, Pattern.ofChoices]

end Level

namespace Derives

theorem atom_ne_nil {part : Part} {text : List Char} {patterns : List Pattern}
    (derived : Derives part text patterns) (atomic : part = .atom) : text ≠ [] := by
  cases derived <;> simp at atomic ⊢

end Derives

namespace Pattern

variable {position : Nat} {level : Level} {enclosing : List (Nat × Level)}

@[simp]
theorem readFrom_star (glyphs : List Glyph) :
    readFrom position level enclosing (.plain '*' :: glyphs) =
      readFrom (position + 1) level.star enclosing glyphs := rfl

@[simp]
theorem readFrom_bar (glyphs : List Glyph) :
    readFrom position level enclosing (.plain '|' :: glyphs) =
      readFrom (position + 1) level.bar enclosing glyphs := rfl

@[simp]
theorem readFrom_opening (glyphs : List Glyph) :
    readFrom position level enclosing (.plain '(' :: glyphs) =
      readFrom (position + 1) {} ((position, level) :: enclosing) glyphs := rfl

@[simp]
theorem readFrom_closing (opened : Nat) (above : Level) (glyphs : List Glyph) :
    readFrom position level ((opened, above) :: enclosing) (.plain ')' :: glyphs) =
      readFrom (position + 1) (above.push level.close) enclosing glyphs := rfl

@[simp]
theorem readFrom_dollar (glyphs : List Glyph) :
    readFrom position level enclosing (.plain '$' :: glyphs) =
      readFrom (position + 1) (level.push .nothing) enclosing glyphs := rfl

@[simp]
theorem readFrom_escaped (char : Char) (glyphs : List Glyph) :
    readFrom position level enclosing (.escaped char :: glyphs) =
      readFrom (position + 2) (level.push (.symbol (Glyph.unescape char))) enclosing glyphs := rfl

theorem readFrom_symbol {char : Char} (free : char ∉ reserved)
    (alone : char = '*' → ¬ level.Open) (glyphs : List Glyph) :
    readFrom position level enclosing (.plain char :: glyphs) =
      readFrom (position + 1) (level.push (.symbol char)) enclosing glyphs := by
  simp only [reserved, List.mem_cons, List.not_mem_nil, or_false, not_or] at free
  rcases free with ⟨-, noOpening, noClosing, noBar, noDollar⟩
  by_cases star : char = '*'
  · subst star
    rw [readFrom_star, Level.star_of_not_open (alone rfl)]
  · rw [readFrom] <;> simp_all [Glyph.width, Glyph.chars]

end Pattern

open Pattern

/-- What reading makes of the text of a part that stands before `rest`. -/
def Part.ReadAs (text : List Char) (patterns : List Pattern) (position : Nat) (level : Level)
    (enclosing : List (Nat × Level)) (rest : List Char) : Part → Prop
  | .atom => (text.head? = some '*' → ¬ level.Open) → ∀ pattern, patterns = [pattern] →
      readFrom position level enclosing (Glyph.ofChars (text ++ rest)) =
        readFrom (position + text.length) (level.push pattern) enclosing (Glyph.ofChars rest)
  | .sequence => (text.head? = some '*' → ¬ level.Open) → rest.head? ≠ some '*' →
      ∃ repeatable, readFrom position level enclosing (Glyph.ofChars (text ++ rest)) =
        readFrom (position + text.length)
          { level with items := patterns.reverse ++ level.items, repeatable := repeatable }
          enclosing (Glyph.ofChars rest)
  | .choices => ¬ level.Open → level.items = [] → rest.head? ≠ some '*' →
      ∃ last, last.close = ofChoices (level.choices.reverse ++ patterns) ∧
        readFrom position level enclosing (Glyph.ofChars (text ++ rest)) =
          readFrom (position + text.length) last enclosing (Glyph.ofChars rest)

/-- The part is read so wherever it stands. -/
def Part.Reads (part : Part) (text : List Char) (patterns : List Pattern) : Prop :=
  ∀ position level enclosing rest, part.ReadAs text patterns position level enclosing rest

namespace Part

variable {text rest : List Char} {atom : Pattern} {items choices : List Pattern}

theorem reads_symbol {char : Char} (free : char ∉ reserved) :
    Part.atom.Reads [char] [.symbol char] := by
  intro position level enclosing rest alone pattern same
  cases same
  have noEscape : char ≠ '\\' := fun escape => free (by simp [escape, reserved])
  rw [List.singleton_append, Glyph.ofChars_plain rest noEscape]
  exact readFrom_symbol free (fun star => alone (by simp [star])) _

theorem reads_nothing : Part.atom.Reads ['$'] [.nothing] := by
  intro position level enclosing rest _ pattern same
  cases same
  rw [List.singleton_append, Glyph.ofChars_plain rest (by decide)]
  exact readFrom_dollar _

theorem reads_escape (char : Char) :
    Part.atom.Reads ['\\', char] [.symbol (Glyph.unescape char)] := by
  intro position level enclosing rest _ pattern same
  cases same
  exact readFrom_escaped char _

theorem reads_group (inner : Part.choices.Reads text choices) :
    Part.atom.Reads ('(' :: (text ++ [')'])) [Pattern.ofChoices choices] := by
  intro position level enclosing rest _ pattern same
  cases same
  rcases inner (position + 1) {} ((position, level) :: enclosing) (')' :: rest)
    (by simp [Level.Open]) rfl (by simp) with ⟨last, closed, read⟩
  have shape : '(' :: (text ++ [')']) ++ rest = '(' :: (text ++ ')' :: rest) := by simp
  rw [shape, Glyph.ofChars_plain _ (by decide), readFrom_opening, read,
    Glyph.ofChars_plain _ (by decide), readFrom_closing, closed]
  simp [Nat.add_assoc, Nat.add_comm 1]

theorem reads_empty : Part.sequence.Reads [] [] := by
  intro position level enclosing rest _ _
  exact ⟨level.repeatable, by simp⟩

theorem reads_plain (first : Part.atom.Reads text [atom]) (present : text ≠ [])
    (later : Part.sequence.Reads rest items) (unstarred : rest.head? ≠ some '*') :
    Part.sequence.Reads (text ++ rest) (atom :: items) := by
  intro position level enclosing beyond alone ending
  have head : text.head? = (text ++ rest).head? := by
    rw [List.head?_append_of_ne_nil _ present]
  rcases later (position + text.length) (level.push atom) enclosing beyond
    (fun star => absurd star unstarred) ending with ⟨repeatable, read⟩
  refine ⟨repeatable, ?_⟩
  rw [List.append_assoc, first position level enclosing (rest ++ beyond)
    (fun star => alone (head ▸ star)) atom rfl, read]
  simp [Level.push, Nat.add_assoc]

theorem reads_starred (first : Part.atom.Reads text [atom]) (present : text ≠ [])
    (later : Part.sequence.Reads rest items) :
    Part.sequence.Reads (text ++ '*' :: rest) (.star atom :: items) := by
  intro position level enclosing beyond alone ending
  have head : text.head? = (text ++ '*' :: rest).head? := by
    rw [List.head?_append_of_ne_nil _ present]
  rcases later (position + text.length + 1)
    { level with items := .star atom :: level.items, repeatable := false } enclosing beyond
    (fun _ opened => by simp [Level.Open] at opened) ending with ⟨repeatable, read⟩
  refine ⟨repeatable, ?_⟩
  rw [List.append_assoc, first position level enclosing ('*' :: rest ++ beyond)
    (fun star => alone (head ▸ star)) atom rfl, List.cons_append,
    Glyph.ofChars_plain _ (by decide), readFrom_star,
    Level.star_of_open (show (level.push atom).items = atom :: level.items from rfl) rfl]
  simp only [Level.push]
  rw [read]
  simp [Nat.add_assoc, Nat.add_comm 1]

theorem reads_last (only : Part.sequence.Reads text items) :
    Part.choices.Reads text [.sequence items] := by
  intro position level enclosing rest closed fresh ending
  rcases only position level enclosing rest (fun _ => closed) ending with ⟨repeatable, read⟩
  refine ⟨_, ?_, read⟩
  simp [Level.close_eq, fresh]

theorem reads_more (first : Part.sequence.Reads text items)
    (later : Part.choices.Reads rest choices) :
    Part.choices.Reads (text ++ '|' :: rest) (.sequence items :: choices) := by
  intro position level enclosing beyond closed fresh ending
  rcases first position level enclosing ('|' :: rest ++ beyond) (fun _ => closed) (by simp) with
    ⟨repeatable, read⟩
  rcases later (position + text.length + 1) { choices := .sequence items :: level.choices }
    enclosing beyond (by simp [Level.Open]) rfl ending with ⟨last, shape, readLater⟩
  refine ⟨last, by simpa using shape, ?_⟩
  rw [List.append_assoc, read, List.cons_append, Glyph.ofChars_plain _ (by decide), readFrom_bar]
  simp only [Level.bar, fresh, List.append_nil, List.reverse_reverse]
  rw [readLater]
  simp [Nat.add_assoc, Nat.add_comm 1]

end Part

theorem Derives.reads {part : Part} {text : List Char} {patterns : List Pattern}
    (derived : Derives part text patterns) : part.Reads text patterns := by
  induction derived with
  | symbol free => exact Part.reads_symbol free
  | nothing => exact Part.reads_nothing
  | escape char => exact Part.reads_escape char
  | group inner ih => exact Part.reads_group ih
  | empty => exact Part.reads_empty
  | plain first later unstarred ihFirst ihLater =>
      exact Part.reads_plain ihFirst (first.atom_ne_nil rfl) ihLater unstarred
  | starred first later ihFirst ihLater =>
      exact Part.reads_starred ihFirst (first.atom_ne_nil rfl) ihLater
  | last only ih => exact Part.reads_last ih
  | more first later ihFirst ihLater => exact Part.reads_more ihFirst ihLater

theorem read_of_derives {text : String} {choices : List Pattern}
    (derived : Derives .choices text.toList choices) :
    Pattern.read text = .ok (ofChoices choices) := by
  rcases derived.reads 0 {} [] [] (by simp [Level.Open]) rfl (by simp) with
    ⟨last, closed, read⟩
  rw [List.append_nil] at read
  rw [Pattern.read, read]
  simp [Glyph.ofChars, readFrom, finish, closed]

/-- The items that a level comes to when its current choice goes on with a text. -/
inductive Level.Continues (level : Level) : List Char → List Pattern → Prop
  | plain {rest : List Char} {items : List Pattern} (later : Derives .sequence rest items)
      (unstarred : level.Open → rest.head? ≠ some '*') :
      level.Continues rest (level.items.reverse ++ items)
  | starred {rest : List Char} {latest : Pattern} {earlier items : List Pattern}
      (repeatable : level.repeatable = true) (shape : level.items = latest :: earlier)
      (later : Derives .sequence rest items) :
      level.Continues ('*' :: rest) (earlier.reverse ++ .star latest :: items)

/-- The choices that a level comes to when it goes on with a text and is closed after it. -/
def Level.Finishes (level : Level) (text : List Char) (choices : List Pattern) : Prop :=
  ∃ items, (level.Continues text items ∧
      choices = level.choices.reverse ++ [.sequence items]) ∨
    ∃ front back others, text = front ++ '|' :: back ∧ level.Continues front items ∧
      Derives .choices back others ∧
      choices = level.choices.reverse ++ .sequence items :: others

/-- What the text after the glyphs already read must be for the whole to be a pattern. -/
def Remaining (pattern : Pattern) (level : Level) :
    List (Nat × Level) → List Char → Prop
  | [], text => ∃ choices, level.Finishes text choices ∧ pattern = ofChoices choices
  | (_, above) :: enclosing, text => ∃ inside rest choices, text = inside ++ ')' :: rest ∧
      level.Finishes inside choices ∧
      Remaining pattern (above.push (ofChoices choices)) enclosing rest

namespace Level

variable {level : Level} {text rest : List Char} {items choices : List Pattern}

theorem continues_atom {atom : Pattern} (first : Derives .atom text [atom])
    (alone : text.head? = some '*' → ¬ level.Open)
    (later : (level.push atom).Continues rest items) : level.Continues (text ++ rest) items := by
  have head : (text ++ rest).head? = text.head? := List.head?_append_of_ne_nil _
    (first.atom_ne_nil rfl)
  cases later with
  | @plain _ more derived unstarred =>
      have step := Derives.plain first derived (unstarred (push_open level atom))
      have whole : level.Continues (text ++ rest) _ :=
        .plain step fun opened star => alone (head ▸ star) opened
      simpa [push] using whole
  | @starred rest latest earlier more _ shape derived =>
      rcases List.cons.inj shape with ⟨rfl, rfl⟩
      have whole : level.Continues (text ++ '*' :: rest) _ :=
        .plain (.starred first derived) fun opened star => alone (head ▸ star) opened
      simpa using whole

theorem continues_star (later : level.star.Continues rest items) :
    level.Continues ('*' :: rest) items := by
  by_cases opened : level.Open
  · rcases List.exists_cons_of_ne_nil opened.2 with ⟨latest, earlier, shape⟩
    rw [star_of_open shape opened.1] at later
    cases later with
    | plain derived _ => simpa using Continues.starred opened.1 shape derived
    | starred repeatable => simp at repeatable
  · rw [star_of_not_open opened] at later
    exact continues_atom (.symbol (by decide)) (fun _ => opened) later

theorem finishes_prepend {next : Level} {front : List Char} (same : next.choices = level.choices)
    (continued : ∀ text items, next.Continues text items → level.Continues (front ++ text) items)
    (later : next.Finishes text choices) : level.Finishes (front ++ text) choices := by
  rcases later with ⟨items, ⟨rest, rfl⟩ | ⟨first, back, others, rfl, rest, derived, rfl⟩⟩
  · exact ⟨items, .inl ⟨continued _ _ rest, by rw [same]⟩⟩
  · refine ⟨items, .inr ⟨front ++ first, back, others, ?_, continued _ _ rest, derived, ?_⟩⟩
    · rw [List.append_assoc]
    · rw [same]

theorem finishes_fresh (fresh : level.items = []) (later : level.Finishes text choices) :
    ∃ others, Derives .choices text others ∧ choices = level.choices.reverse ++ others := by
  have derived_of : ∀ {text items}, level.Continues text items → Derives .sequence text items := by
    intro text items continued
    cases continued with
    | plain derived _ => simpa [fresh] using derived
    | starred _ shape => simp [fresh] at shape
  rcases later with ⟨items, ⟨rest, rfl⟩ | ⟨front, back, others, rfl, rest, derived, rfl⟩⟩
  · exact ⟨_, .last (derived_of rest), rfl⟩
  · exact ⟨_, .more (derived_of rest) derived, rfl⟩

theorem continues_nil : level.Continues [] level.items.reverse := by
  have whole : level.Continues [] (level.items.reverse ++ []) := .plain .empty fun _ => by simp
  simpa using whole

theorem finishes_bar (later : level.bar.Finishes text choices) :
    level.Finishes ('|' :: text) choices := by
  rcases finishes_fresh rfl later with ⟨others, derived, rfl⟩
  exact ⟨_, .inr ⟨[], text, others, rfl, continues_nil, derived, by simp [bar]⟩⟩

theorem finishes_nil :
    level.Finishes [] (level.choices.reverse ++ [.sequence level.items.reverse]) :=
  ⟨_, .inl ⟨continues_nil, rfl⟩⟩

end Level

theorem Remaining.prepend {pattern : Pattern} {level next : Level} {front text : List Char}
    {enclosing : List (Nat × Level)}
    (finished : ∀ text choices, next.Finishes text choices →
      level.Finishes (front ++ text) choices)
    (remaining : Remaining pattern next enclosing text) :
    Remaining pattern level enclosing (front ++ text) := by
  cases enclosing with
  | nil =>
      rcases remaining with ⟨choices, closed, same⟩
      exact ⟨choices, finished _ _ closed, same⟩
  | cons _ enclosing =>
      rcases remaining with ⟨inside, rest, choices, rfl, closed, later⟩
      exact ⟨front ++ inside, rest, choices, by simp, finished _ _ closed, later⟩

theorem Remaining.atom {pattern atom : Pattern} {level : Level} {front text : List Char}
    {enclosing : List (Nat × Level)} (first : Derives .atom front [atom])
    (alone : front.head? = some '*' → ¬ level.Open)
    (remaining : Remaining pattern (level.push atom) enclosing text) :
    Remaining pattern level enclosing (front ++ text) :=
  remaining.prepend fun _ _ => Level.finishes_prepend (by rfl)
    fun _ _ => Level.continues_atom first alone

theorem Remaining.star {pattern : Pattern} {level : Level} {text : List Char}
    {enclosing : List (Nat × Level)} (remaining : Remaining pattern level.star enclosing text) :
    Remaining pattern level enclosing ('*' :: text) := by
  have same : level.star.choices = level.choices := by
    unfold Level.star
    split <;> rfl
  show Remaining pattern level enclosing (['*'] ++ text)
  exact remaining.prepend fun _ _ => Level.finishes_prepend same fun _ _ => Level.continues_star

theorem Remaining.bar {pattern : Pattern} {level : Level} {text : List Char}
    {enclosing : List (Nat × Level)} (remaining : Remaining pattern level.bar enclosing text) :
    Remaining pattern level enclosing ('|' :: text) := by
  show Remaining pattern level enclosing (['|'] ++ text)
  exact remaining.prepend fun _ _ => Level.finishes_bar

theorem Remaining.opening {pattern : Pattern} {level : Level} {text : List Char} {position : Nat}
    {enclosing : List (Nat × Level)}
    (remaining : Remaining pattern {} ((position, level) :: enclosing) text) :
    Remaining pattern level enclosing ('(' :: text) := by
  rcases remaining with ⟨inside, after, choices, rfl, closed, later⟩
  rcases Level.finishes_fresh rfl closed with ⟨others, derived, same⟩
  have whole : choices = others := by simpa using same
  rw [← whole] at derived
  have group := later.atom (.group derived) (by simp)
  simpa using group

theorem Remaining.closing {pattern : Pattern} {level above : Level} {text : List Char}
    {position : Nat} {enclosing : List (Nat × Level)}
    (remaining : Remaining pattern (above.push level.close) enclosing text) :
    Remaining pattern level ((position, above) :: enclosing) (')' :: text) := by
  refine ⟨[], text, _, rfl, Level.finishes_nil, ?_⟩
  rw [← level.close_eq]
  exact remaining

theorem remaining_of_readFrom {pattern : Pattern} {text : List Char} {position : Nat}
    {level : Level} {enclosing : List (Nat × Level)}
    (read : readFrom position level enclosing (Glyph.ofChars text) = .ok pattern) :
    Remaining pattern level enclosing text := by
  induction text using Glyph.escape_induction generalizing position level enclosing with
  | empty =>
      simp only [Glyph.ofChars, readFrom, finish] at read
      split at read
      case h_1 outside =>
        rcases List.getLast?_eq_none_iff.mp outside with rfl
        rcases Except.ok.inj read with rfl
        exact ⟨_, Level.finishes_nil, level.close_eq⟩
      case h_2 => simp at read
  | dangling =>
      simp only [Glyph.ofChars, readFrom, finish] at read
      split at read <;> simp at read
  | escape char rest ih =>
      rw [Glyph.ofChars, readFrom_escaped] at read
      have whole := (ih read).atom (.escape char) (by simp)
      exact whole
  | plain char rest noEscape ih =>
      rw [Glyph.ofChars_plain _ noEscape] at read
      -- One case for each character that reading treats apart, and the others are symbols.
      by_cases opening : char = '('
      · subst opening
        rw [readFrom_opening] at read
        exact (ih read).opening
      by_cases closing : char = ')'
      · subst closing
        cases enclosing with
        | nil => simp [readFrom] at read
        | cons outer enclosing =>
            rw [readFrom_closing] at read
            exact (ih read).closing
      by_cases bar : char = '|'
      · subst bar
        rw [readFrom_bar] at read
        exact (ih read).bar
      by_cases star : char = '*'
      · subst star
        rw [readFrom_star] at read
        exact (ih read).star
      by_cases dollar : char = '$'
      · subst dollar
        rw [readFrom_dollar] at read
        have whole := (ih read).atom .nothing (by simp)
        exact whole
      have free : char ∉ reserved := by simp [reserved, *]
      rw [readFrom_symbol free (fun same => absurd same star)] at read
      have whole := (ih read).atom (.symbol free) (by simp [star])
      exact whole

/-- Reading accepts the texts of the grammar, and reads each as the one pattern it stands for. -/
theorem read_eq_ok_iff {text : String} {pattern : Pattern} :
    Pattern.read text = .ok pattern ↔
      ∃ choices, Derives .choices text.toList choices ∧ pattern = ofChoices choices := by
  constructor
  · intro read
    rcases remaining_of_readFrom read with ⟨choices, closed, same⟩
    rcases Level.finishes_fresh rfl closed with ⟨others, derived, shape⟩
    obtain rfl : choices = others := by simpa using shape
    exact ⟨choices, derived, same⟩
  · intro derivable
    rcases derivable with ⟨choices, derived, rfl⟩
    exact read_of_derives derived

example : Pattern.read "a**|*" = .ok (.choice
    [.sequence [.star (.symbol 'a'), .symbol '*'], .sequence [.symbol '*']]) := by rfl

theorem mem_textLanguage_iff {text : String} {pattern : Pattern}
    (read : Pattern.read text = .ok pattern) (word : List Char) :
    word ∈ textLanguage text.toList ↔ word ∈ pattern.language := by
  rcases read_eq_ok_iff.mp read with ⟨choices, derived, rfl⟩
  constructor
  · intro meant
    rcases meant with ⟨others, derivedOthers, member⟩
    have same := (read_of_derives derived).symm.trans (read_of_derives derivedOthers)
    rwa [Except.ok.inj same]
  · intro member
    exact ⟨choices, derived, member⟩

end MaximalMunch
