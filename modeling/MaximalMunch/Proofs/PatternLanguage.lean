import MaximalMunch.Pattern.Basic
import Mathlib.Computability.RegularExpressions

/-!
The regular language of a pattern. Sequences are concatenations of any length and choices are
unions of any number of alternatives, so a pattern is first turned into an expression of the
binary operations.
-/

namespace MaximalMunch

namespace Pattern

mutual

def regex : Pattern → RegularExpression Char
  | .symbol char => .char char
  | .nothing => 1
  | .star inner => (regex inner).star
  | .sequence items => sequenceRegex items
  | .choice alternatives => choiceRegex alternatives

def sequenceRegex : List Pattern → RegularExpression Char
  | [] => 1
  | item :: rest => regex item * sequenceRegex rest

def choiceRegex : List Pattern → RegularExpression Char
  | [] => 0
  | alternative :: rest => regex alternative + choiceRegex rest

end

def language (pattern : Pattern) : Language Char := pattern.regex.matches'

@[simp]
theorem language_symbol (char : Char) : (symbol char).language = {[char]} :=
  RegularExpression.matches'_char char

@[simp]
theorem language_nothing : nothing.language = 1 := RegularExpression.matches'_epsilon

open scoped Computability in
@[simp]
theorem language_star (inner : Pattern) : (star inner).language = inner.language∗ :=
  RegularExpression.matches'_star inner.regex

@[simp]
theorem language_sequence_nil : (sequence []).language = 1 := RegularExpression.matches'_epsilon

@[simp]
theorem language_sequence_cons (item : Pattern) (rest : List Pattern) :
    (sequence (item :: rest)).language = item.language * (sequence rest).language :=
  RegularExpression.matches'_mul item.regex (sequenceRegex rest)

@[simp]
theorem language_choice_nil : (choice []).language = 0 := RegularExpression.matches'_zero

@[simp]
theorem language_choice_cons (alternative : Pattern) (rest : List Pattern) :
    (choice (alternative :: rest)).language =
      alternative.language + (choice rest).language :=
  RegularExpression.matches'_add alternative.regex (choiceRegex rest)

/-- Choices as one pattern: a single one stands for itself. -/
def ofChoices : List Pattern → Pattern
  | [single] => single
  | choices => .choice choices

@[simp]
theorem language_ofChoices (choices : List Pattern) :
    (ofChoices choices).language = (choice choices).language := by
  match choices with
  | [] => rfl
  | [single] => simp [ofChoices]
  | _ :: _ :: _ => rfl

end Pattern

end MaximalMunch
