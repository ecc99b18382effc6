import MaximalMunch.Json.Literal
import MaximalMunch.Json.Value
import Mathlib.Data.List.Basic
import Mathlib.Tactic.Choose

/-!
Reading JSON texts that were written without spaces. The characters come back from their bytes,
the tokens from the characters, and from the tokens the value that the text was written for.
-/

namespace MaximalMunch

theorem utf8DecodeChar?_append (front : ByteArray) (char : Char) (rest : List Char) :
    (front ++ (char :: rest).utf8Encode).utf8DecodeChar? front.size = some char := by
  rw [ByteArray.utf8DecodeChar?_eq_utf8DecodeChar?_extract, ByteArray.size_append,
    ByteArray.extract_append_eq_right rfl rfl]
  exact List.utf8DecodeChar?_utf8Encode_cons

theorem utf8Encode_cons (char : Char) (rest : List Char) :
    (char :: rest).utf8Encode = [char].utf8Encode ++ rest.utf8Encode := by
  simp [List.utf8Encode]

@[simp]
theorem size_utf8Encode_singleton (char : Char) : [char].utf8Encode.size = char.utf8Size := by
  simp [List.utf8Encode]

theorem decodeFrom_utf8Encode (front : ByteArray) (chars : List Char) (done : RawText) :
    decodeFrom (front ++ chars.utf8Encode) front.size done =
      done.reverse ++ chars.map some := by
  induction chars generalizing front done with
  | nil =>
      rw [decodeFrom, if_neg (by simp [List.utf8Encode])]
      simp
  | cons char rest ih =>
      have inside : front.size < (front ++ (char :: rest).utf8Encode).size := by
        have := char.utf8Size_pos
        rw [utf8Encode_cons, ByteArray.size_append, ByteArray.size_append,
          size_utf8Encode_singleton]
        omega
      rw [decodeFrom, if_pos inside]
      simp only [utf8DecodeChar?_append]
      have next := ih (front ++ [char].utf8Encode) (some char :: done)
      rw [ByteArray.append_assoc, ← utf8Encode_cons, ByteArray.size_append,
        size_utf8Encode_singleton] at next
      rw [next]
      simp

@[simp]
theorem decodeUtf8_toUTF8 (text : String) : decodeUtf8 text.toUTF8 = text.toList.map some := by
  have whole := decodeFrom_utf8Encode .empty text.toList []
  rw [ByteArray.empty_append] at whole
  rw [String.utf8Encode_toList] at whole
  exact whole

namespace Json

/-- The letter stands for the character, whatever letters follow it. -/
def Letter.Denotes (letter : Letter) (char : Char) : Prop :=
  ∀ letters, charsOf (letter :: letters) = (charsOf letters).map (char :: ·)

theorem Letter.char_denotes (char : Char) : (Letter.char char).Denotes char := by
  intro letters
  rw [charsOf]

theorem Letter.escape_denotes {char : Char} (small : char.toNat < 0xD800) :
    (Letter.escape char.toNat).Denotes char := by
  have notHigh : isHighSurrogate char.toNat = false := by
    simp only [isHighSurrogate, Bool.and_eq_false_iff, decide_eq_false_iff_not]
    omega
  have notLow : isLowSurrogate char.toNat = false := by
    simp only [isLowSurrogate, Bool.and_eq_false_iff, decide_eq_false_iff_not]
    omega
  intro letters
  cases letters with
  | nil => simp [charsOf, notHigh, notLow]
  | cons letter letters => cases letter <;> simp [charsOf, notHigh, notLow]

theorem hexValue?_digitChar {digit : Nat} (small : digit < 16) :
    hexValue? digit.digitChar = some digit := by
  revert digit
  decide

theorem codeUnit?_of_control {char : Char} (control : char.toNat < 0x20) :
    codeUnit? (some '0') (some '0') (some (char.toNat / 16).digitChar)
      (some (char.toNat % 16).digitChar) = some char.toNat := by
  have zero : hexValue? '0' = some 0 := rfl
  have high : hexValue? (char.toNat / 16).digitChar = some (char.toNat / 16) :=
    hexValue?_digitChar (by omega)
  have low : hexValue? (char.toNat % 16).digitChar = some (char.toNat % 16) :=
    hexValue?_digitChar (by omega)
  simp only [codeUnit?, zero, high, low, Option.bind_eq_bind, Option.bind_some, pure,
    Option.some.injEq]
  omega

theorem readLetters_escaped (char : Char) (done : List Letter) (rest : RawText) :
    ∃ letter : Letter, letter.Denotes char ∧
      readLetters done ((Literal.escaped char).map some ++ rest) =
        readLetters (letter :: done) rest := by
  unfold Literal.escaped
  split
  case h_8 noQuote noBackslash _ _ _ _ _ =>
    by_cases control : char.toNat < 0x20
    · refine ⟨_, Letter.escape_denotes (Nat.lt_trans control (by decide)), ?_⟩
      rw [if_pos control]
      simp [readLetters, codeUnit?_of_control control]
    · refine ⟨_, Letter.char_denotes char, ?_⟩
      rw [if_neg control, List.map_singleton, List.singleton_append, readLetters, if_neg control]
      all_goals simp_all
  all_goals exact ⟨_, Letter.char_denotes _, rfl⟩

theorem readLetters_flatMap_escaped (chars : List Char) (done : List Letter) (rest : RawText) :
    ∃ letters, charsOf letters = some chars ∧
      readLetters done ((chars.flatMap Literal.escaped).map some ++ some '"' :: rest) =
        some (done.reverse ++ letters, rest) := by
  induction chars generalizing done with
  | nil => exact ⟨[], rfl, by simp [readLetters]⟩
  | cons char chars ih =>
      obtain ⟨letter, denotes, first⟩ := readLetters_escaped char done
        ((chars.flatMap Literal.escaped).map some ++ some '"' :: rest)
      obtain ⟨letters, content, later⟩ := ih (letter :: done)
      refine ⟨letter :: letters, ?_, ?_⟩
      · rw [denotes, content, Option.map_some]
      · rw [List.flatMap_cons, List.map_append, List.append_assoc, first, later]
        simp

theorem ne_of_isDigit {char other : Char} (digit : char.isDigit = true)
    (noDigit : other.isDigit = false) : char ≠ other := by
  rintro rfl
  rw [digit] at noDigit
  cases noDigit

theorem decimalValue?_of_isDigit {char : Char} (digit : char.isDigit = true) :
    decimalValue? (some char) = some (char.toNat - '0'.toNat) := by
  have bounds : '0' ≤ char ∧ char ≤ '9' := by
    simpa [Char.isDigit, Char.le_def] using digit
  rw [decimalValue?, if_pos bounds]

def Delimits (rest : RawText) : Prop :=
  rest = [] ∨ ∃ char ∈ [',', ':', ']', '\x7d'], rest.head? = some (some char)

theorem Delimits.readDigits {rest : RawText} (delimits : Delimits rest) (done : List Nat) :
    readDigits done rest = (done.reverse, rest) := by
  obtain rfl | ⟨char, listed, head⟩ := delimits
  · rfl
  · cases rest with
    | nil => cases head
    | cons place rest =>
        cases head
        simp only [List.mem_cons, List.not_mem_nil, or_false] at listed
        obtain rfl | rfl | rfl | rfl := listed <;> rfl

theorem readDigits_append {chars : List Char} (digits : ∀ char ∈ chars, char.isDigit = true)
    {rest : RawText} (delimits : Delimits rest) (done : List Nat) :
    readDigits done (chars.map some ++ rest) =
      (done.reverse ++ chars.map (fun char => char.toNat - '0'.toNat), rest) := by
  induction chars generalizing done with
  | nil => simp [delimits.readDigits]
  | cons char chars ih =>
      have first := decimalValue?_of_isDigit (digits char List.mem_cons_self)
      have later := ih (fun other member => digits other (List.mem_cons_of_mem _ member))
        ((char.toNat - '0'.toNat) :: done)
      rw [List.map_cons, List.cons_append, Json.readDigits, first]
      dsimp only
      rw [later, List.reverse_cons, List.append_assoc, List.map_cons, List.singleton_append]

theorem Delimits.skip {rest : RawText} (delimits : Delimits rest) :
    skipFraction rest = some rest ∧ skipExponent rest = some rest := by
  obtain rfl | ⟨char, listed, head⟩ := delimits
  · exact ⟨rfl, rfl⟩
  · cases rest with
    | nil => cases head
    | cons place rest =>
        cases head
        simp only [List.mem_cons, List.not_mem_nil, or_false] at listed
        obtain rfl | rfl | rfl | rfl := listed <;> exact ⟨rfl, rfl⟩

def decimals (value : Nat) : List Nat :=
  (Literal.natural value).map fun char => char.toNat - '0'.toNat

@[simp]
theorem valueOf_decimals (value : Nat) : valueOf (decimals value) = value := by
  calc valueOf (decimals value)
      = Nat.ofDigitChars 10 (Nat.toDigits 10 value) 0 := by
        rw [valueOf, decimals, List.foldl_map, Nat.ofDigitChars_eq_foldl, Literal.natural]
    _ = value := Nat.ofDigitChars_ten_toDigits

theorem decimals_of_lt {value : Nat} (small : value < 10) : decimals value = [value] := by
  rw [decimals, Literal.natural, Nat.toDigits_of_lt_base small, List.map_singleton]
  exact congrArg (fun digit => [digit]) (Nat.toNat_digitChar_sub_48_of_lt_ten small)

theorem head?_decimals {value : Nat} (large : 10 ≤ value) : (decimals value).head? ≠ some 0 := by
  have shape : decimals value = decimals (value / 10) ++ decimals (value % 10) := by
    simp only [decimals, Literal.natural]
    rw [Nat.toDigits_of_base_le (by decide) large, List.map_append,
      Nat.toDigits_of_lt_base (Nat.mod_lt _ (by decide))]
  have present : decimals (value / 10) ≠ [] := by simp [decimals, Literal.natural]
  rw [shape, List.head?_append_of_ne_nil _ present]
  by_cases small : value / 10 < 10
  · rw [decimals_of_lt small, List.head?_singleton, ne_eq, Option.some.injEq]
    omega
  · exact head?_decimals (Nat.le_of_not_lt small)
termination_by value

theorem readUnsigned_natural (value : Nat) {rest : RawText} (delimits : Delimits rest) :
    readUnsigned ((Literal.natural value).map some ++ rest) = some (some value, rest) := by
  have digits : ∀ char ∈ Literal.natural value, char.isDigit = true := fun char member =>
    Nat.isDigit_of_mem_toDigits (by decide) (by decide) member
  have read : readDigits [] ((Literal.natural value).map some ++ rest) = (decimals value, rest) :=
    readDigits_append digits delimits []
  have proper : ((decimals value).isEmpty ||
      ((decimals value).head? == some 0 && (decimals value).length != 1)) = false := by
    by_cases small : value < 10
    · simp [decimals_of_lt small]
    · have present : decimals value ≠ [] := by simp [decimals, Literal.natural]
      simp [head?_decimals (Nat.le_of_not_lt small), present]
  simp [readUnsigned, read, proper, delimits.skip]

theorem head?_natural (value : Nat) :
    ∃ char digits, Literal.natural value = char :: digits ∧ char.isDigit = true := by
  cases shape : Literal.natural value with
  | nil => exact absurd shape Nat.toDigits_ne_nil
  | cons char digits =>
      have member : char ∈ Nat.toDigits 10 value := by
        rw [← Literal.natural, shape]
        exact List.mem_cons_self
      exact ⟨char, digits, rfl, Nat.isDigit_of_mem_toDigits (by decide) (by decide) member⟩

/-- The text is cut into the tokens where a value may end. -/
def Cuts (text : List Char) (tokens : List Token) : Prop :=
  ∀ done rest, Delimits rest →
    tokensFrom done (text.map some ++ rest) = tokensFrom (tokens.reverse ++ done) rest

theorem tokensFrom_of_readToken {char : Char} {rest final : RawText} {token : Token}
    (visible : isSpace char = false) (read : readToken char rest = some (token, final))
    (done : List Token) :
    tokensFrom done (some char :: rest) = tokensFrom (token :: done) final := by
  rw [tokensFrom, if_neg (by simp [visible])]
  split
  · simp_all
  · simp_all

theorem tokensFrom_mark {char : Char} (mark : char ∈ ['[', ']', '\x7b', '\x7d', ',', ':'])
    (done : List Token) (rest : RawText) :
    tokensFrom done (some char :: rest) = tokensFrom (.mark char :: done) rest := by
  apply tokensFrom_of_readToken
  · simp only [List.mem_cons, List.not_mem_nil, or_false] at mark
    obtain rfl | rfl | rfl | rfl | rfl | rfl := mark <;> rfl
  · rw [readToken, if_pos mark]

theorem cuts_null : Cuts "null".toList [.null] := by
  intro done rest _
  exact tokensFrom_of_readToken rfl rfl done

theorem readToken_of_isDigit {char : Char} (digit : char.isDigit = true) (rest : RawText) :
    readToken char rest =
      (readUnsigned (some char :: rest)).map fun (value, rest) => (.number value, rest) := by
  have apart : ∀ other : Char, other.isDigit = false → char ≠ other :=
    fun _ noDigit => ne_of_isDigit digit noDigit
  have marks : char ∉ ['[', ']', '\x7b', '\x7d', ',', ':'] := by
    simp only [List.mem_cons, List.not_mem_nil, or_false, not_or]
    exact ⟨apart _ rfl, apart _ rfl, apart _ rfl, apart _ rfl, apart _ rfl, apart _ rfl⟩
  have unsigned : readNumber (some char :: rest) = readUnsigned (some char :: rest) := by
    unfold readNumber
    split
    case h_1 same => exact absurd (Option.some.inj (List.cons.inj same).1) (apart _ rfl)
    case h_2 => rfl
  rw [readToken, if_neg marks, if_neg (apart _ rfl), if_neg (apart _ rfl), if_neg (apart _ rfl),
    if_neg (apart _ rfl), unsigned]

theorem isSpace_of_isDigit {char : Char} (digit : char.isDigit = true) : isSpace char = false := by
  simp [isSpace, ne_of_isDigit digit]

theorem cuts_natural (value : Nat) : Cuts (Literal.natural value) [.number (some value)] := by
  intro done rest delimits
  obtain ⟨char, digits, shape, digit⟩ := head?_natural value
  have read := readUnsigned_natural value delimits
  rw [shape, List.map_cons, List.cons_append] at read ⊢
  apply tokensFrom_of_readToken (isSpace_of_isDigit digit)
  rw [readToken_of_isDigit digit, read]
  rfl

theorem tokensFrom_string (content : String) (done : List Token) (rest : RawText) :
    tokensFrom done ((Literal.string content.toList).map some ++ rest) =
      tokensFrom (.text (some content) :: done) rest := by
  obtain ⟨letters, denoted, read⟩ := readLetters_flatMap_escaped content.toList [] rest
  have text : (Literal.string content.toList).map some ++ rest =
      some '"' :: ((content.toList.flatMap Literal.escaped).map some ++ some '"' :: rest) := by
    simp [Literal.string]
  rw [text]
  apply tokensFrom_of_readToken rfl
  simp [readToken, read, contentOf, denoted]

def Builds (tokens : List Token) (value : Json) : Prop :=
  ∀ stack rest, build stack none (tokens ++ rest) = build stack (some value) rest

/-- The text is written for the value. -/
def Written (value : Json) (text : List Char) : Prop :=
  ∃ tokens, Cuts text tokens ∧ Builds tokens value

theorem read_of_written {value : Json} {text : List Char} (written : Written value text) :
    read (text.map some) = some value := by
  obtain ⟨tokens, cuts, builds⟩ := written
  have cut : tokens? (text.map some) = some tokens := by
    have whole := cuts [] [] (.inl rfl)
    rw [List.append_nil, List.append_nil] at whole
    rw [tokens?, whole, tokensFrom, List.reverse_reverse]
  have built := builds [] []
  rw [List.append_nil] at built
  rw [read, cut]
  exact built

theorem written_null : Written .null "null".toList :=
  ⟨[.null], cuts_null, fun _ _ => rfl⟩

def natural (value : Nat) : Json := .number (some value)

def string (content : String) : Json := .text (some content)

def list {α : Type} (value : α → Json) (items : List α) : Json := .array (items.map value)

def record (fields : List (String × Json)) : Json :=
  .object (fields.map fun field => (some field.1, field.2))

theorem written_natural (value : Nat) : Written (natural value) (Literal.natural value) :=
  ⟨[.number (some value)], cuts_natural value, fun _ _ => rfl⟩

theorem written_string (content : String) :
    Written (string content) (Literal.string content.toList) :=
  ⟨[.text (some content)], fun done rest _ => tokensFrom_string content done rest, fun _ _ => rfl⟩

theorem delimits_cons {char : Char} (listed : char ∈ [',', ':', ']', '\x7d']) (rest : RawText) :
    Delimits (some char :: rest) :=
  .inr ⟨char, listed, rfl⟩

theorem commaSeparated_cons (item : List Char) (items : List (List Char)) :
    Literal.commaSeparated (item :: items) = item ++ items.flatMap (',' :: ·) := by
  induction items generalizing item with
  | nil => simp [Literal.commaSeparated]
  | cons next items ih => simp [Literal.commaSeparated, ih]

def joined : List (List Token) → List Token
  | [] => []
  | first :: rest => first ++ rest.flatMap (.mark ',' :: ·)

section Lists

variable {α : Type} {items : List α} {text : α → List Char} {tokens : α → List Token}
  {value : α → Json} {name : α → String}

theorem delimits_flatMap (texts : List (List Char)) {rest : RawText} (delimits : Delimits rest) :
    Delimits ((texts.flatMap (',' :: ·)).map some ++ rest) := by
  cases texts with
  | nil => exact delimits
  | cons text texts => exact delimits_cons (by decide) _

theorem cuts_flatMap (cuts : ∀ item ∈ items, Cuts (text item) (tokens item)) :
    Cuts ((items.map text).flatMap (',' :: ·)) ((items.map tokens).flatMap (.mark ',' :: ·)) := by
  induction items with
  | nil =>
      intro done rest _
      rfl
  | cons item items ih =>
      intro done rest delimits
      have behind := delimits_flatMap (items.map text) delimits
      have later := ih fun other member => cuts other (List.mem_cons_of_mem _ member)
      simp only [List.map_cons, List.flatMap_cons, List.map_append, List.cons_append,
        List.append_assoc]
      rw [tokensFrom_mark (by decide), cuts item List.mem_cons_self _ _ behind,
        later _ _ delimits]
      simp

theorem cuts_enclosed {opening closing : Char}
    (opens : opening ∈ ['[', ']', '\x7b', '\x7d', ',', ':'])
    (closes : closing ∈ ['[', ']', '\x7b', '\x7d', ',', ':'])
    (delimits : closing ∈ [',', ':', ']', '\x7d'])
    (cuts : ∀ item ∈ items, Cuts (text item) (tokens item)) :
    Cuts (opening :: Literal.commaSeparated (items.map text) ++ [closing])
      (.mark opening :: joined (items.map tokens) ++ [.mark closing]) := by
  intro done rest _
  have ends : Delimits (some closing :: rest) := delimits_cons delimits rest
  cases items with
  | nil =>
      simp only [List.map_nil, Literal.commaSeparated, joined, List.map_cons, List.cons_append,
        List.nil_append]
      rw [tokensFrom_mark opens, tokensFrom_mark closes]
      rfl
  | cons item items =>
      have behind := delimits_flatMap (items.map text) ends
      have later := cuts_flatMap fun other member => cuts other (List.mem_cons_of_mem _ member)
      simp only [List.map_cons, commaSeparated_cons, joined, List.map_append, List.cons_append,
        List.append_assoc, List.map_nil, List.nil_append]
      rw [tokensFrom_mark opens, cuts item List.mem_cons_self _ _ behind, later _ _ ends,
        tokensFrom_mark closes]
      simp

theorem cuts_field {key : String} {content : List Char} {inner : List Token}
    (cuts : Cuts content inner) :
    Cuts (Literal.field key content) (.text (some key) :: .mark ':' :: inner) := by
  intro done rest delimits
  rw [Literal.field, List.map_append, List.append_assoc, List.map_cons, List.cons_append,
    tokensFrom_string, tokensFrom_mark (by decide), cuts _ _ delimits]
  simp

theorem Builds.build_array {first : List Token} {result : Json} (builds : Builds first result)
    (stack : List Frame) (rest : List Token) :
    build stack none (.mark '[' :: (first ++ rest)) =
      build (.array [] :: stack) none (first ++ rest) := by
  -- No value begins with the mark that ends an array.
  have whole := builds [] []
  rw [List.append_nil] at whole
  match first with
  | [] => simp [build] at whole
  | token :: first =>
      rw [List.cons_append, build]
      intro others same
      rw [(List.cons.inj same).1] at whole
      simp [build] at whole

theorem build_items (builds : ∀ item ∈ items, Builds (tokens item) (value item))
    (stack : List Frame) (earlier : List Json) (latest : Json) (rest : List Token) :
    build (.array earlier :: stack) (some latest)
        ((items.map tokens).flatMap (.mark ',' :: ·) ++ .mark ']' :: rest) =
      build stack (some (.array (earlier.reverse ++ latest :: items.map value))) rest := by
  induction items generalizing earlier latest with
  | nil => simp [build]
  | cons item items ih =>
      have later := ih fun other member => builds other (List.mem_cons_of_mem _ member)
      simp only [List.map_cons, List.flatMap_cons, List.cons_append, List.append_assoc]
      rw [build, builds item List.mem_cons_self, later]
      simp

theorem builds_array (builds : ∀ item ∈ items, Builds (tokens item) (value item)) :
    Builds (.mark '[' :: joined (items.map tokens) ++ [.mark ']']) (list value items) := by
  intro stack rest
  cases items with
  | nil => rfl
  | cons item items =>
      have first := builds item List.mem_cons_self
      have later := build_items fun other member => builds other (List.mem_cons_of_mem _ member)
      simp only [List.map_cons, joined, List.cons_append, List.append_assoc, List.nil_append]
      rw [first.build_array, first, later]
      rfl

theorem build_fields (builds : ∀ item ∈ items, Builds (tokens item) (value item))
    (stack : List Frame) (earlier : List (Option String × Json)) (key : Option String)
    (latest : Json) (rest : List Token) :
    build (.object earlier key :: stack) (some latest)
        ((items.map fun item => .text (some (name item)) :: .mark ':' :: tokens item).flatMap
          (.mark ',' :: ·) ++ .mark '\x7d' :: rest) =
      build stack (some (.object (earlier.reverse ++ (key, latest) ::
        items.map fun item => (some (name item), value item)))) rest := by
  induction items generalizing earlier key latest with
  | nil => simp [build]
  | cons item items ih =>
      have later := ih fun other member => builds other (List.mem_cons_of_mem _ member)
      simp only [List.map_cons, List.flatMap_cons, List.cons_append, List.append_assoc]
      rw [build, builds item List.mem_cons_self, later]
      simp

theorem builds_object (builds : ∀ item ∈ items, Builds (tokens item) (value item)) :
    Builds (.mark '\x7b' ::
        joined (items.map fun item => .text (some (name item)) :: .mark ':' :: tokens item) ++
          [.mark '\x7d'])
      (record (items.map fun item => (name item, value item))) := by
  intro stack rest
  cases items with
  | nil => rfl
  | cons item items =>
      have first := builds item List.mem_cons_self
      have others : ∀ other ∈ items, Builds (tokens other) (value other) :=
        fun other member => builds other (List.mem_cons_of_mem _ member)
      simp only [List.map_cons, joined, List.cons_append, List.append_assoc, List.nil_append]
      rw [build, first, build_fields others, record, List.map_cons, List.map_map]
      rfl

theorem written_list (written : ∀ item ∈ items, Written (value item) (text item)) :
    Written (list value items) (Literal.array (items.map text)) := by
  choose! tokens cuts builds using written
  exact ⟨_, cuts_enclosed (by decide) (by decide) (by decide) cuts, builds_array builds⟩

theorem written_record (written : ∀ item ∈ items, Written (value item) (text item)) :
    Written (record (items.map fun item => (name item, value item)))
      (Literal.object (items.map fun item => (name item, text item))) := by
  choose! tokens cuts builds using written
  have cutsFields : ∀ item ∈ items, Cuts (Literal.field (name item) (text item))
      (.text (some (name item)) :: .mark ':' :: tokens item) :=
    fun item member => cuts_field (cuts item member)
  refine ⟨_, ?_, builds_object builds⟩
  rw [Literal.object, List.map_map]
  exact cuts_enclosed (by decide) (by decide) (by decide) cutsFields

end Lists

theorem written_fields (fields : List (String × Json × List Char))
    (written : fields.Forall fun field => Written field.2.1 field.2.2) :
    Written (record (fields.map fun field => (field.1, field.2.1)))
      (Literal.object (fields.map fun field => (field.1, field.2.2))) :=
  written_record (List.forall_iff_forall_mem.mp written)

end Json

end MaximalMunch
