import MaximalMunch.Json.Token

/-!
The tokens of a whole JSON text. Each token takes at least one character, so the text is used up.
-/

namespace MaximalMunch.Json

theorem readLetters_length {done letters : List Letter} {text rest : RawText}
    (read : readLetters done text = some (letters, rest)) : rest.length < text.length := by
  fun_induction readLetters done text with
  | case2 done a b c d tail codeUnit _ ih =>
    have := ih read
    simp only [List.length_cons]
    omega
  | _ => grind

theorem readDigits_length (done : List Nat) (text : RawText) :
    (readDigits done text).2.length ≤ text.length := by
  fun_induction readDigits done text <;> grind

theorem readDigits_length_lt {text : RawText} (some_digit : (readDigits [] text).1 ≠ []) :
    (readDigits [] text).2.length < text.length := by
  cases text with
  | nil => simp [readDigits] at some_digit
  | cons place rest =>
    rw [readDigits] at some_digit ⊢
    cases digit : decimalValue? place with
    | none => simp [digit] at some_digit
    | some value =>
      have := readDigits_length [value] rest
      simp only [List.length_cons]
      omega

theorem skipFraction_length {text rest : RawText} (skipped : skipFraction text = some rest) :
    rest.length ≤ text.length := by
  unfold skipFraction at skipped
  split at skipped
  case h_1 tail =>
    have := readDigits_length [] tail
    split at skipped <;> grind
  case h_2 => simp_all

theorem skipSign_length (text : RawText) : (skipSign text).length ≤ text.length := by
  unfold skipSign
  split <;> grind

theorem skipExponent_length {text rest : RawText} (skipped : skipExponent text = some rest) :
    rest.length ≤ text.length := by
  unfold skipExponent at skipped
  split at skipped
  case h_1 tail =>
    have := readDigits_length [] (skipSign tail)
    have := skipSign_length tail
    split at skipped <;> grind
  case h_2 tail =>
    have := readDigits_length [] (skipSign tail)
    have := skipSign_length tail
    split at skipped <;> grind
  case h_3 => simp_all

theorem readUnsigned_length {text rest : RawText} {value : Option Nat}
    (read : readUnsigned text = some (value, rest)) : rest.length < text.length := by
  unfold readUnsigned at read
  dsimp only at read
  split at read
  · simp at read
  case isFalse proper =>
    have some_digit : (readDigits [] text).1 ≠ [] := by
      intro none_read
      simp [none_read] at proper
    have less := readDigits_length_lt some_digit
    cases fraction : skipFraction (readDigits [] text).2 with
    | none => simp [fraction] at read
    | some middle =>
      cases exponent : skipExponent middle with
      | none => simp [fraction, exponent] at read
      | some final =>
        have := skipFraction_length fraction
        have := skipExponent_length exponent
        simp only [fraction, exponent, Option.bind_eq_bind, Option.bind_some, pure,
          Option.some.injEq, Prod.mk.injEq] at read
        obtain ⟨-, rfl⟩ := read
        omega

theorem readNumber_length {text rest : RawText} {value : Option Nat}
    (read : readNumber text = some (value, rest)) : rest.length < text.length := by
  unfold readNumber at read
  split at read
  case h_1 tail =>
    obtain ⟨⟨inner, final⟩, found, same⟩ := Option.map_eq_some_iff.mp read
    obtain ⟨-, rfl⟩ := Prod.mk.inj same
    exact Nat.lt_succ_of_lt (readUnsigned_length found)
  case h_2 => exact readUnsigned_length read

theorem afterWord_length {word : List Char} {text rest : RawText}
    (after : afterWord? word text = some rest) : rest.length ≤ text.length := by
  fun_induction afterWord? word text <;> grind

theorem readToken_length {char : Char} {text rest : RawText} {token : Token}
    (read : readToken char text = some (token, rest)) : rest.length ≤ text.length := by
  unfold readToken at read
  split at read
  · grind
  split at read
  · cases letters : readLetters [] text with
    | none => simp [letters] at read
    | some pair =>
      obtain ⟨inner, final⟩ := pair
      have := readLetters_length letters
      simp only [letters, Option.bind_eq_bind, Option.bind_some, pure, Option.some.injEq,
        Prod.mk.injEq] at read
      obtain ⟨-, rfl⟩ := read
      omega
  split at read
  · obtain ⟨final, found, same⟩ := Option.map_eq_some_iff.mp read
    obtain ⟨-, rfl⟩ := Prod.mk.inj same
    exact afterWord_length found
  split at read
  · obtain ⟨final, found, same⟩ := Option.map_eq_some_iff.mp read
    obtain ⟨-, rfl⟩ := Prod.mk.inj same
    exact afterWord_length found
  split at read
  · obtain ⟨final, found, same⟩ := Option.map_eq_some_iff.mp read
    obtain ⟨-, rfl⟩ := Prod.mk.inj same
    exact afterWord_length found
  · obtain ⟨⟨value, final⟩, found, same⟩ := Option.map_eq_some_iff.mp read
    obtain ⟨-, rfl⟩ := Prod.mk.inj same
    have := readNumber_length found
    simpa using Nat.le_of_lt_succ this

/-- The tokens of a text, put before those already `done`, latest first. -/
def tokensFrom (done : List Token) : RawText → Option (List Token)
  | [] => some done.reverse
  | none :: _ => none
  | some char :: rest =>
    if isSpace char then tokensFrom done rest
    else
      match read : readToken char rest with
      | none => none
      | some (token, final) =>
        have := readToken_length read
        tokensFrom (token :: done) final
termination_by text => text.length

def tokens? (text : RawText) : Option (List Token) := tokensFrom [] text

end MaximalMunch.Json
