import MaximalMunch.Proofs.SpecificationFormat
import Mathlib

/-!
The texts that actions are written as. An action is its keyword, with a state or a count behind
it, and white space does not matter. A count may have one sign and any zeros in front, so it can
be spelled in many ways, and the text of an action has the shortest of them.
-/

namespace MaximalMunch

def numeral (zeros count : Nat) : List Char :=
  List.replicate zeros '0' ++ Nat.toDigits 10 count

/-- A count below the limit is spelled as a numeral, with at most one sign. -/
inductive SpellsCount : List Char → Nat → Prop
  | unsigned {count : Nat} (zeros : Nat) (small : count < countLimit) :
      SpellsCount (numeral zeros count) count
  | signed {count : Nat} (zeros : Nat) (small : count < countLimit) :
      SpellsCount ('+' :: numeral zeros count) count

/-- The words are the keyword of the action, and the argument of an action that has one. -/
inductive Action.Spells : List (List Char) → Action → Prop
  | switchState (target : List Char) :
      Spells ["UDJI_U_STANJE".toList, target] (.switchState (String.ofList target))
  | goBack {word : List Char} {count : Nat} (spelled : SpellsCount word count) :
      Spells ["VRATI_SE".toList, word] (.goBack count)
  | suppress : Spells ["-".toList] .suppress
  | incrementLine : Spells ["NOVI_REDAK".toList] .incrementLine

/-- The target is one word, and the count is in range. -/
def Action.Legible : Action → Prop
  | .switchState target => target ≠ "" ∧ ∀ char ∈ target.toList, isWhiteSpace char = false
  | .goBack count => count < countLimit
  | .suppress | .incrementLine => True

/-- Two texts of the same words, whatever white space stands around and between them. -/
def Respaced (text other : List Char) : Prop := ∃ words, Spaced text words ∧ Spaced other words

section Counts

variable {word digits : List Char} {value count : Nat}

theorem isDigit_iff {char : Char} :
    char.isDigit = true ↔ 48 ≤ char.toNat ∧ char.toNat ≤ 57 := by
  simp [Char.isDigit, UInt32.le_iff_toNat_le]

theorem not_isWhiteSpace_of_isDigit {char : Char} (digit : char.isDigit = true) :
    isWhiteSpace char = false := by
  have bounds := isDigit_iff.mp digit
  simp [isWhiteSpace, inRanges, whiteSpaceRanges]
  omega

theorem digitValue?_of_isDigit {char : Char} (digit : char.isDigit = true) :
    digitValue? char = some (char.toNat - '0'.toNat) := by
  have bounds : '0' ≤ char ∧ char ≤ '9' := by
    simpa [Char.isDigit, Char.le_def] using digit
  rw [digitValue?, if_pos bounds]

theorem digitValue?_of_not_isDigit {char : Char} (other : ¬ char.isDigit = true) :
    digitValue? char = none := by
  have outside : ¬ ('0' ≤ char ∧ char ≤ '9') := by
    simpa [Char.isDigit, Char.le_def] using other
  rw [digitValue?, if_neg outside]

theorem le_ofDigitChars (digits : List Char) (value : Nat) :
    value ≤ Nat.ofDigitChars 10 digits value := by
  rw [Nat.ofDigitChars_eq_ofDigitChars_zero]
  have scaled : 1 * value ≤ 10 ^ digits.length * value :=
    Nat.mul_le_mul_right value (Nat.pos_of_neZero _)
  omega

theorem readDigits_eq_ok_iff (small : value < countLimit) :
    readDigits value digits = .ok count ↔ (∀ char ∈ digits, char.isDigit = true) ∧
      Nat.ofDigitChars 10 digits value = count ∧ count < countLimit := by
  -- The limit is passed as soon as the digits read so far pass it, for the value only grows.
  induction digits generalizing value with
  | nil =>
      rw [readDigits, Nat.ofDigitChars_nil]
      constructor
      · intro read
        cases read
        exact ⟨fun char member => absurd member List.not_mem_nil, rfl, small⟩
      · rintro ⟨-, rfl, -⟩
        rfl
  | cons char rest ih =>
      rw [readDigits, Nat.ofDigitChars_cons, List.forall_mem_cons]
      by_cases digit : char.isDigit = true
      · rw [digitValue?_of_isDigit digit]
        dsimp only
        split
        case isTrue next =>
          rw [ih next]
          exact ⟨fun whole => ⟨⟨digit, whole.1⟩, whole.2⟩, fun whole => ⟨whole.1.2, whole.2⟩⟩
        case isFalse beyond =>
          constructor
          · intro read
            cases read
          · rintro ⟨-, same, bounded⟩
            have grown := le_ofDigitChars rest (10 * value + (char.toNat - '0'.toNat))
            rw [same] at grown
            exact absurd (Nat.lt_of_le_of_lt grown bounded) beyond
      · rw [digitValue?_of_not_isDigit digit]
        constructor
        · intro read
          cases read
        · rintro ⟨⟨first, -⟩, -⟩
          exact absurd first digit

theorem isDigit_of_mem_numeral {zeros : Nat} {char : Char} (member : char ∈ numeral zeros count) :
    char.isDigit = true := by
  rcases List.mem_append.mp member with zero | digit
  · rw [List.eq_of_mem_replicate zero]
    rfl
  · exact Nat.isDigit_of_mem_toDigits (by decide) (by decide) digit

theorem ofDigitChars_numeral (zeros count : Nat) :
    Nat.ofDigitChars 10 (numeral zeros count) 0 = count := by
  rw [numeral, Nat.ofDigitChars_append, Nat.ofDigitChars_replicate_zero, Nat.mul_zero,
    Nat.ofDigitChars_ten_toDigits]

theorem numeral_ne_nil (zeros count : Nat) : numeral zeros count ≠ [] := by
  simp [numeral]

theorem exists_numeral_concat (zeros count : Nat) {digit : Nat} (small : digit < 10) :
    ∃ more, numeral zeros count ++ [digit.digitChar] = numeral more (10 * count + digit) := by
  rw [← Nat.toDigits_of_lt_base small]
  by_cases positive : 0 < count
  · refine ⟨zeros, ?_⟩
    rw [numeral, numeral, List.append_assoc,
      Nat.toDigits_append_toDigits (by decide) positive small]
  · obtain rfl : count = 0 := Nat.eq_zero_of_not_pos positive
    refine ⟨zeros + 1, ?_⟩
    rw [numeral, numeral, Nat.toDigits_zero, Nat.mul_zero, Nat.zero_add, List.replicate_succ']

theorem digitChar_of_isDigit {char : Char} (digit : char.isDigit = true) :
    char.toNat - '0'.toNat < 10 ∧ (char.toNat - '0'.toNat).digitChar = char := by
  have bounds := isDigit_iff.mp digit
  have small : char.toNat - '0'.toNat < 10 := by
    rw [show '0'.toNat = 48 from rfl]
    omega
  refine ⟨small, ?_⟩
  apply Char.toNat_inj.mp
  rw [Nat.toNat_digitChar_of_lt_ten small, show '0'.toNat = 48 from rfl]
  omega

theorem exists_numeral (present : digits ≠ []) (all : ∀ char ∈ digits, char.isDigit = true) :
    ∃ zeros, digits = numeral zeros (Nat.ofDigitChars 10 digits 0) := by
  induction digits using List.reverseRecOn with
  | nil => exact absurd rfl present
  | append_singleton front char ih =>
      rcases digitChar_of_isDigit (all char (by simp)) with ⟨small, same⟩
      rw [Nat.ofDigitChars_append, Nat.ofDigitChars_cons, Nat.ofDigitChars_nil]
      by_cases first : front = []
      · subst first
        refine ⟨0, ?_⟩
        rw [numeral, Nat.ofDigitChars_nil, Nat.mul_zero, Nat.zero_add,
          Nat.toDigits_of_lt_base small, same]
        rfl
      · rcases ih first (fun other member => all other (List.mem_append_left _ member)) with
          ⟨zeros, shape⟩
        rcases exists_numeral_concat zeros (Nat.ofDigitChars 10 front 0) small with ⟨more, whole⟩
        rw [same, ← shape] at whole
        exact ⟨more, whole⟩

theorem readDigits_numeral_iff (present : digits ≠ []) :
    readDigits 0 digits = .ok count ↔
      count < countLimit ∧ ∃ zeros, digits = numeral zeros count := by
  rw [readDigits_eq_ok_iff (by decide)]
  constructor
  · rintro ⟨all, rfl, small⟩
    exact ⟨small, exists_numeral present all⟩
  · rintro ⟨small, zeros, rfl⟩
    exact ⟨fun char => isDigit_of_mem_numeral, ofDigitChars_numeral zeros count, small⟩

theorem readCount_signed (digits : List Char) :
    readCount ('+' :: digits) = .ok count ↔ digits ≠ [] ∧ readDigits 0 digits = .ok count := by
  cases digits with
  | nil => simp [readCount]
  | cons char rest => simp [readCount]

theorem readCount_unsigned (free : word.head? ≠ some '+') :
    readCount word = .ok count ↔ word ≠ [] ∧ readDigits 0 word = .ok count := by
  cases word with
  | nil => simp [readCount]
  | cons char rest =>
      have other : char ≠ '+' := by simpa using free
      unfold readCount
      split
      case h_1 same => cases same
      case h_2 same => exact absurd (List.cons.inj same).1 other
      case h_3 same => exact absurd (List.cons.inj same).1 other
      case h_4 => simp

theorem head?_numeral_ne (zeros count : Nat) : (numeral zeros count).head? ≠ some '+' := by
  intro first
  have digit := isDigit_of_mem_numeral (List.mem_of_head? first)
  cases digit

theorem readCount_eq_ok_iff : readCount word = .ok count ↔ SpellsCount word count := by
  constructor
  · intro read
    by_cases sign : word.head? = some '+'
    · rcases List.head?_eq_some_iff.mp sign with ⟨digits, rfl⟩
      rcases (readCount_signed digits).mp read with ⟨present, read⟩
      rcases (readDigits_numeral_iff present).mp read with ⟨small, zeros, rfl⟩
      exact .signed zeros small
    · rcases (readCount_unsigned sign).mp read with ⟨present, read⟩
      rcases (readDigits_numeral_iff present).mp read with ⟨small, zeros, rfl⟩
      exact .unsigned zeros small
  · intro spelled
    cases spelled with
    | unsigned zeros small =>
        have present := numeral_ne_nil zeros count
        refine (readCount_unsigned (head?_numeral_ne zeros count)).mpr ⟨present, ?_⟩
        exact (readDigits_numeral_iff present).mpr ⟨small, zeros, rfl⟩
    | signed zeros small =>
        have present := numeral_ne_nil zeros count
        refine (readCount_signed _).mpr ⟨present, ?_⟩
        exact (readDigits_numeral_iff present).mpr ⟨small, zeros, rfl⟩

theorem SpellsCount.lt (spelled : SpellsCount word count) : count < countLimit := by
  cases spelled with
  | unsigned zeros small => exact small
  | signed zeros small => exact small

end Counts

namespace Action

variable {action : Action} {text : List Char} {found : List (List Char)}

theorem spells_of_readKeyword {keyword : String} {arguments : List String}
    (read : readKeyword keyword arguments = .ok (action, [])) :
    Spells ((keyword :: arguments).map String.toList) action := by
  unfold readKeyword at read
  split at read
  case isTrue same =>
    subst same
    split at read
    case h_1 => cases read
    case h_2 target extra =>
      cases read
      have spelled := Spells.switchState target.toList
      rwa [String.ofList_toList] at spelled
  case isFalse =>
    split at read
    case isTrue same =>
      subst same
      split at read
      case h_1 => cases read
      case h_2 word extra =>
        split at read
        case h_1 count counted =>
          cases read
          exact .goBack (readCount_eq_ok_iff.mp counted)
        case h_2 => cases read
    case isFalse =>
      split at read
      case isTrue same =>
        subst same
        cases read
        exact .incrementLine
      case isFalse =>
        split at read
        case isTrue same =>
          subst same
          cases read
          exact .suppress
        case isFalse => cases read

theorem parse_of_words {keyword : List Char} {arguments : List (List Char)}
    (cut : words text = keyword :: arguments)
    (read : readKeyword (String.ofList keyword) (arguments.map String.ofList) =
      .ok (action, [])) : parse text = .ok action := by
  rw [parse, cut, List.map_cons, List.headD_cons, List.tail_cons, read]
  rfl

theorem parse_eq_ok_iff :
    parse text = .ok action ↔ ∃ found, Spaced text found ∧ Spells found action := by
  constructor
  · intro parsed
    refine ⟨words text, spaced_words text, ?_⟩
    rw [parse] at parsed
    rcases bind_eq_ok_iff.mp parsed with ⟨⟨read, extra⟩, keyword, whole⟩
    cases extra with
    | cons word later => cases whole
    | nil =>
        cases whole
        cases cut : words text with
        | nil =>
            rw [cut] at keyword
            cases keyword
        | cons first rest =>
            rw [cut] at keyword
            have spelled := spells_of_readKeyword keyword
            simpa using spelled
  · rintro ⟨found, spaced, spelled⟩
    have cut := spaced_iff.mp spaced
    cases spelled with
    | switchState target => exact parse_of_words cut rfl
    | suppress => exact parse_of_words cut rfl
    | incrementLine => exact parse_of_words cut rfl
    | @goBack word count spelled =>
        apply parse_of_words cut
        have counted : readCount (String.ofList word).toList = .ok count := by
          rw [String.toList_ofList]
          exact readCount_eq_ok_iff.mpr spelled
        have other : "VRATI_SE" ≠ switchKeyword := by decide
        have same : "VRATI_SE" = goBackKeyword := rfl
        rw [List.map_singleton, String.ofList_toList, readKeyword, if_neg other, if_pos same,
          counted]

theorem Spells.legible (spaced : Spaced text found) (spelled : Spells found action) :
    action.Legible := by
  cases spelled with
  | suppress => trivial
  | incrementLine => trivial
  | goBack spelled => exact spelled.lt
  | switchState target =>
      rcases spaced.solid target (by simp) with ⟨nonempty, solid⟩
      constructor
      · simpa using nonempty
      · rwa [String.toList_ofList]

theorem solid_of_all {word : List Char} (solid : word.all (!isWhiteSpace ·) = true) :
    ∀ char ∈ word, isWhiteSpace char = false := by
  intro char member
  have each := List.all_eq_true.mp solid char member
  rwa [Bool.not_eq_true'] at each

theorem exists_spells_text (legible : action.Legible) :
    ∃ found, Spaced action.text.toList found ∧ Spells found action := by
  cases action with
  | suppress => exact ⟨_, spaced_alone (by decide) (solid_of_all (by decide)), .suppress⟩
  | incrementLine =>
      exact ⟨_, spaced_alone (by decide) (solid_of_all (by decide)), .incrementLine⟩
  | switchState target =>
      rcases legible with ⟨nonempty, solid⟩
      have spelled := Spells.switchState target.toList
      rw [String.ofList_toList] at spelled
      refine ⟨_, ?_, spelled⟩
      have shape : (Action.switchState target).text.toList =
          switchKeyword.toList ++ ' ' :: target.toList := by
        simp [Action.text]
      rw [shape]
      exact spaced_pair (by decide) (solid_of_all (by decide)) (by simpa using nonempty) solid
  | goBack count =>
      refine ⟨_, ?_, .goBack (.unsigned 0 legible)⟩
      have shape : (Action.goBack count).text.toList =
          goBackKeyword.toList ++ ' ' :: numeral 0 count := by
        simp [Action.text, numeral]
      rw [shape]
      exact spaced_pair (by decide) (solid_of_all (by decide)) (numeral_ne_nil 0 count)
        fun char member => not_isWhiteSpace_of_isDigit (isDigit_of_mem_numeral member)

theorem parse_of_respaced (legible : action.Legible)
    (respaced : Respaced action.text.toList text) : parse text = .ok action := by
  rcases exists_spells_text legible with ⟨found, spaced, spelled⟩
  rcases respaced with ⟨words, same, other⟩
  rw [← spaced_iff.mp same, spaced_iff.mp spaced] at other
  exact parse_eq_ok_iff.mpr ⟨found, other, spelled⟩

/--
Reading an action undoes writing it, on every line and whatever white space surrounds and parts
its words. And the texts read as an action are the spellings of it, so that what was read is read
again from the text it is written as.
-/
theorem parse_inverts_text :
    (∀ action text, action.Legible → Respaced action.text.toList text →
      parse text = .ok action ∧
        ∀ states number, (∀ target, action = .switchState target → target ∈ states) →
          Specification.readAction states ⟨number, text⟩ = .ok action) ∧
    ∀ text action,
      (parse text = .ok action ↔ ∃ found, Spaced text found ∧ Spells found action) ∧
      (parse text = .ok action → parse action.text.toList = .ok action) := by
  constructor
  · intro action text legible respaced
    have parsed := parse_of_respaced legible respaced
    refine ⟨parsed, ?_⟩
    intro states number declared
    exact Specification.readAction_eq_ok_iff.mpr ⟨parsed, declared⟩
  · intro text action
    refine ⟨parse_eq_ok_iff, ?_⟩
    intro parsed
    rcases parse_eq_ok_iff.mp parsed with ⟨found, spaced, spelled⟩
    rcases exists_spells_text (spelled.legible spaced) with ⟨written, shortest, also⟩
    exact parse_eq_ok_iff.mpr ⟨written, shortest, also⟩

theorem parse_inverts_text_padded :
    parse "\u3000VRATI_SE\t\t7\n".toList = .ok (.goBack 7) ∧
      Specification.readAction [] ⟨12, "\u3000VRATI_SE\t\t7\n".toList⟩ = .ok (.goBack 7) ∧
        parse "VRATI_SE +007".toList = .ok (.goBack 7) ∧
          parse (Action.goBack 7).text.toList = .ok (.goBack 7) := by
  have legible : (Action.goBack 7).Legible := (by decide : 7 < countLimit)
  have respaced : Respaced (Action.goBack 7).text.toList "\u3000VRATI_SE\t\t7\n".toList :=
    ⟨_, spaced_words _, spaced_iff.mpr (by cbv)⟩
  have parsed : parse "VRATI_SE +007".toList = .ok (.goBack 7) := by cbv
  rcases parse_inverts_text.1 _ _ legible respaced with ⟨padded, onLines⟩
  exact ⟨padded, onLines [] 12 (by simp), parsed, (parse_inverts_text.2 _ _).2 parsed⟩

end Action

end MaximalMunch
