import MaximalMunch.Proofs.DeclaredTables
import MaximalMunch.Proofs.TextLayout
import MaximalMunch.Specification.Reader
import Mathlib.Data.List.Forall2

/-!
The format of a specification: which lines it is written as, and what each of them says. The reader
accepts exactly the texts of this format, and reads from them what they say.
-/

namespace MaximalMunch

/-- The entries as declared one after another: a name keeps its first place and its last pattern. -/
structure DefinitionTable.Holds (table : DefinitionTable) (entries : List (String × String)) :
    Prop where
  names : table.names = (entries.map Prod.fst).eraseDups
  patterns : ∀ name, table.get? name = entries.reverse.lookup name

namespace Specification

/-- A name in braces, one space and a pattern. -/
inductive WritesDefinition : Line → Declaration → Prop
  | definition {name : List Char} (number : Nat) (pattern : List Char) (named : name ≠ [])
      (plain : ∀ char ∈ name, char ≠ '\x7d' ∧ isWhiteSpace char = false) :
      WritesDefinition ⟨number, '\x7b' :: (name ++ '\x7d' :: ' ' :: pattern)⟩
        ⟨String.ofList name, String.ofList pattern, number⟩

/-- A keyword alone, or names behind it. -/
inductive WritesHeader (keyword : String) : Line → List String → Prop
  | alone (number : Nat) : WritesHeader keyword ⟨number, keyword.toList⟩ []
  | names {char : Char} {rest : List Char} {names : List (List Char)} (number : Nat)
      (parted : isWhiteSpace char = true) (spaced : Spaced (char :: rest) names) :
      WritesHeader keyword ⟨number, keyword.toList ++ char :: rest⟩
        (names.map String.ofList)

/-- An action, with a declared state if it switches. -/
structure WritesAction (states : List String) (line : Line) (action : Action) : Prop where
  parsed : Action.parse line.text = .ok action
  declared : ∀ target, action = .switchState target → target ∈ states

/-- A state and a pattern, then in braces a unit and actions. -/
inductive WritesRule (states units : List String) : List Line → RuleSpec → Prop
  | rule {state unit : List Char} {opening unitLine closing : Line} {actionLines : List Line}
      {actions : List Action} (number : Nat) (pattern : List Char) (named : '>' ∉ state)
      (declared : String.ofList state ∈ states) (opens : Trimmed opening.text ['\x7b'])
      (unitWritten : Trimmed unitLine.text unit) (notClosing : unit ≠ ['\x7d'])
      (known : String.ofList unit = "-" ∨ String.ofList unit ∈ units)
      (written : List.Forall₂ (WritesAction states) actionLines actions)
      (closes : Trimmed closing.text ['\x7d']) :
      WritesRule states units
        (⟨number, '<' :: (state ++ '>' :: pattern)⟩ :: opening :: unitLine ::
          (actionLines ++ [closing]))
        ⟨String.ofList state, String.ofList pattern, String.ofList unit, actions, number⟩

/-- The lines that are not blank, under the numbers they have among all lines. -/
def contentLines (texts : List (List Char)) : List Line :=
  (texts.zipIdx.map fun (text, index) => ⟨index + 1, text⟩).filter fun line => !isBlank line.text

/-- Definitions, states, units and rules, one after another. -/
inductive Written (source : String) : Specification → Prop
  | written {texts : List (List Char)} {front : List Line} {statesLine unitsLine : Line}
      {blocks : List (List Line)} {declarations : List Declaration} {states units : List String}
      {rules : List RuleSpec} {definitions : DefinitionTable}
      (falls : FallsInto source.toList texts)
      (layout : contentLines texts = front ++ statesLine :: unitsLine :: blocks.flatten)
      (declared : List.Forall₂ WritesDefinition front declarations)
      (holds : definitions.Holds (declarations.map fun d => (d.name, d.pattern)))
      (statesWritten : WritesHeader "%X" statesLine states) (nonempty : states ≠ [])
      (unitsWritten : WritesHeader "%L" unitsLine units)
      (rulesWritten : List.Forall₂ (WritesRule states units) blocks rules) :
      Written source {
        definitions := definitions
        definitionLines := declarations.map fun d => (d.name, d.line)
        states := states
        units := units
        rules := rules }

end Specification

theorem DefinitionTable.holds_iff {table : DefinitionTable} {entries : List (String × String)} :
    table.Holds entries ↔ table = ofList entries := by
  constructor
  · intro holds
    apply eq_of_get? (nodup_names_ofList entries)
    · rw [names_ofList]
      exact holds.names
    · intro name
      rw [get?_ofList]
      exact holds.patterns name
  · rintro rfl
    exact ⟨names_ofList entries, get?_ofList entries⟩

theorem bind_eq_ok_iff {ε α β : Type} {first : Except ε α} {next : α → Except ε β} {output : β} :
    (first >>= next) = .ok output ↔ ∃ value, first = .ok value ∧ next value = .ok output := by
  constructor
  · intro done
    cases taken : first with
    | error fault =>
        rw [taken] at done
        cases done
    | ok value =>
        rw [taken] at done
        exact ⟨value, rfl, done⟩
  · rintro ⟨value, rfl, done⟩
    exact done

theorem splitAtFirst_eq_some_iff {mark : Char} {text front back : List Char} :
    splitAtFirst mark text = some (front, back) ↔ text = front ++ mark :: back ∧ mark ∉ front := by
  induction text generalizing front with
  | nil => simp [splitAtFirst]
  | cons char rest ih =>
      rw [splitAtFirst]
      split
      case isTrue here =>
        subst here
        constructor
        · intro cut
          cases cut
          exact ⟨rfl, List.not_mem_nil⟩
        · rintro ⟨split, free⟩
          cases front with
          | nil => rw [(List.cons.inj split).2]
          | cons first front =>
              exact absurd ((List.cons.inj split).1 ▸ List.mem_cons_self) free
      case isFalse other =>
        rw [Option.map_eq_some_iff]
        constructor
        · rintro ⟨⟨before, after⟩, cut, same⟩
          cases same
          rcases ih.mp cut with ⟨rfl, free⟩
          refine ⟨rfl, ?_⟩
          rw [List.mem_cons, not_or]
          exact ⟨Ne.symm other, free⟩
        · rintro ⟨split, free⟩
          cases front with
          | nil => exact absurd (List.cons.inj split).1 other
          | cons first front =>
              rw [List.mem_cons, not_or] at free
              cases split
              exact ⟨(front, back), ih.mpr ⟨rfl, free.2⟩, rfl⟩

namespace Specification

variable {line header : Line} {ahead rest : List Line} {states units : List String}

theorem readDefinition_eq_ok_iff {name pattern : String}
    (opens : line.text.head? = some '\x7b') : readDefinition line = .ok (name, pattern) ↔
      WritesDefinition line ⟨name, pattern, line.number⟩ := by
  rcases line with ⟨number, text⟩
  rcases List.head?_eq_some_iff.mp opens with ⟨inside, split⟩
  cases split
  constructor
  · intro read
    unfold readDefinition at read
    split at read
    case h_2 => cases read
    case h_1 chars after cut =>
      rcases splitAtFirst_eq_some_iff.mp cut with ⟨split, free⟩
      rw [List.tail_cons] at split
      split at read
      case isTrue => cases read
      case isFalse fits =>
        rw [Bool.or_eq_true, not_or, List.isEmpty_iff, List.any_eq_true, not_exists] at fits
        cases read
        rw [split]
        apply WritesDefinition.definition number after fits.1
        intro char member
        refine ⟨fun same => free (same ▸ member), ?_⟩
        rw [← Bool.not_eq_true]
        exact fun space => fits.2 char ⟨member, space⟩
  · intro writes
    cases writes with
    | @definition chars _ after named plain =>
        have free : '\x7d' ∉ chars := fun member => (plain _ member).1 rfl
        have solid : chars.any isWhiteSpace = false := by
          rw [List.any_eq_false]
          intro char member
          rw [(plain char member).2]
          exact Bool.false_ne_true
        have cut : splitAtFirst '\x7d' (chars ++ '\x7d' :: ' ' :: after) =
            some (chars, ' ' :: after) := splitAtFirst_eq_some_iff.mpr ⟨rfl, free⟩
        rw [readDefinition, List.tail_cons, cut]
        simp [solid, named]

theorem readHeader_eq_ok_iff {kind : Header} {endLine number : Nat} {names : List String} :
    readHeader kind endLine ahead = .ok (names, number, rest) ↔
      ∃ line, ahead = line :: rest ∧ line.number = number ∧
        WritesHeader kind.keyword line names := by
  cases ahead with
  | nil => simp [readHeader]
  | cons first later =>
      rcases first with ⟨place, text⟩
      constructor
      · intro read
        rw [readHeader] at read
        split at read
        case h_2 => cases read
        case h_1 found prefixed =>
          have split : text = kind.keyword.toList ++ found :=
            (List.isPrefixOf?_eq_some_iff_append_eq.mp prefixed).symm
          split at read
          case isFalse => cases read
          case isTrue parted =>
            cases read
            refine ⟨_, rfl, rfl, ?_⟩
            rw [split]
            cases found with
            | nil =>
                rw [List.append_nil]
                exact .alone place
            | cons char found => exact .names place (by simpa using parted) (spaced_words _)
      · rintro ⟨line, same, rfl, writes⟩
        cases same
        have prefixed : ∀ found, kind.keyword.toList.isPrefixOf?
            (kind.keyword.toList ++ found) = some found :=
          fun found => List.isPrefixOf?_eq_some_iff_append_eq.mpr rfl
        cases writes with
        | alone number =>
            have whole := prefixed []
            rw [List.append_nil] at whole
            rw [readHeader, whole]
            rfl
        | names _ parted spaced =>
            rw [readHeader, prefixed]
            simp [parted, spaced_iff.mp spaced]

theorem WritesHeader.not_opens {kind : Header} {names : List String}
    (writes : WritesHeader kind.keyword line names) : line.text.head? ≠ some '\x7b' := by
  -- Headers are told from definitions by how they begin.
  cases writes with
  | alone number => cases kind <;> simp [Header.keyword]
  | names number parted spaced => cases kind <;> simp [Header.keyword]

theorem readAction_eq_ok_iff {action : Action} :
    readAction states line = .ok action ↔ WritesAction states line action := by
  unfold readAction
  constructor
  · intro read
    split at read
    case h_1 => cases read
    case h_2 target parsed =>
      split at read
      case isFalse => cases read
      case isTrue declared =>
        cases read
        refine ⟨parsed, ?_⟩
        rintro other same
        cases same
        exact declared
    case h_3 other plain parsed =>
      cases read
      exact ⟨parsed, fun target same => absurd same (plain target)⟩
  · rintro ⟨parsed, declared⟩
    rw [parsed]
    cases action with
    | switchState target => exact if_pos (declared target rfl)
    | goBack count => rfl
    | suppress => rfl
    | incrementLine => rfl

theorem readUnit_eq_ok_iff {opened : Nat} {unit : String} :
    readUnit units opened line = .ok unit ↔ ∃ chars, unit = String.ofList chars ∧
      Trimmed line.text chars ∧ chars ≠ ['\x7d'] ∧ (unit = "-" ∨ unit ∈ units) := by
  unfold readUnit
  dsimp only
  constructor
  · intro read
    split at read
    case isTrue => cases read
    case isFalse notClosing =>
      split at read
      case isFalse => cases read
      case isTrue known =>
        cases read
        exact ⟨trim line.text, rfl, trimmed_trim _, notClosing, known⟩
  · rintro ⟨chars, rfl, trimmed, notClosing, known⟩
    rw [trimmed_iff.mp trimmed, if_neg notClosing]
    exact if_pos known

theorem readRuleHeader_eq_ok_iff {state pattern : String} :
    readRuleHeader states header = .ok (state, pattern) ↔
      ∃ name text, header.text = '<' :: (name ++ '>' :: text) ∧ '>' ∉ name ∧
        state = String.ofList name ∧ state ∈ states ∧ pattern = String.ofList text := by
  unfold readRuleHeader
  constructor
  · intro read
    split at read
    case h_2 => cases read
    case h_1 inside opens =>
      split at read
      case h_2 => cases read
      case h_1 name text cut =>
        rcases splitAtFirst_eq_some_iff.mp cut with ⟨split, free⟩
        dsimp only at read
        split at read
        case isFalse => cases read
        case isTrue declared =>
          cases read
          exact ⟨name, text, split ▸ opens, free, rfl, declared, rfl⟩
  · rintro ⟨name, text, split, free, rfl, declared, rfl⟩
    have cut : splitAtFirst '>' (name ++ '>' :: text) = some (name, text) :=
      splitAtFirst_eq_some_iff.mpr ⟨rfl, free⟩
    simp [split, cut, declared]

theorem WritesDefinition.opens {declaration : Declaration}
    (writes : WritesDefinition line declaration) :
    line.text.head? = some '\x7b' ∧ declaration.line = line.number := by
  cases writes with
  | definition number pattern named plain => exact ⟨rfl, rfl⟩

theorem readDefinitions_eq_ok_iff {declarations : List Declaration} :
    readDefinitions ahead = .ok (declarations, rest) ↔ ∃ front, ahead = front ++ rest ∧
      List.Forall₂ WritesDefinition front declarations ∧
        ∀ line, rest.head? = some line → line.text.head? ≠ some '\x7b' := by
  induction ahead generalizing declarations with
  | nil =>
      constructor
      · intro read
        cases read
        exact ⟨[], rfl, .nil, by simp⟩
      · rintro ⟨front, split, written, -⟩
        rcases List.append_eq_nil_iff.mp split.symm with ⟨rfl, rfl⟩
        cases written
        rfl
  | cons line later ih =>
      rw [readDefinitions]
      split
      case isTrue opens =>
        constructor
        · intro read
          rcases bind_eq_ok_iff.mp read with ⟨⟨name, pattern⟩, first, read⟩
          rcases bind_eq_ok_iff.mp read with ⟨⟨more, behind⟩, others, read⟩
          cases read
          rcases ih.mp others with ⟨front, rfl, written, ended⟩
          have begins := (readDefinition_eq_ok_iff opens).mp first
          exact ⟨line :: front, rfl, .cons begins written, ended⟩
        · rintro ⟨front, split, written, ended⟩
          cases written with
          | nil =>
              cases split
              exact absurd opens (ended line rfl)
          | @cons first declaration front declarations writes written =>
              cases split
              have others := ih.mpr ⟨front, rfl, written, ended⟩
              rcases declaration with ⟨name, pattern, number⟩
              have place : number = line.number := writes.opens.2
              subst place
              rw [(readDefinition_eq_ok_iff opens).mpr writes, others]
              rfl
      case isFalse other =>
        constructor
        · intro read
          cases read
          refine ⟨[], rfl, .nil, ?_⟩
          intro first same
          cases same
          exact other
        · rintro ⟨front, split, written, -⟩
          cases written with
          | nil =>
              cases split
              rfl
          | cons writes =>
              cases split
              exact absurd writes.opens.1 other

theorem not_writesAction_of_closing {action : Action} (closes : Trimmed line.text ['\x7d']) :
    ¬ WritesAction states line action := by
  intro writes
  have solid : ∀ char ∈ ['\x7d'], isWhiteSpace char = false :=
    List.forall_mem_singleton.mpr rfl
  have alone := closes.words_eq (List.cons_ne_nil _ _) solid
  have parsed := writes.parsed
  rw [Action.parse, alone] at parsed
  cases parsed

theorem readActions_eq_ok_iff {opened : Nat} {actions : List Action} :
    readActions states opened ahead = .ok (actions, rest) ↔ ∃ front closing,
      ahead = front ++ closing :: rest ∧ List.Forall₂ (WritesAction states) front actions ∧
        Trimmed closing.text ['\x7d'] := by
  induction ahead generalizing actions with
  | nil => simp [readActions]
  | cons line later ih =>
      rw [readActions]
      split
      case isTrue closing =>
        have closes := trimmed_iff.mpr closing
        constructor
        · intro read
          cases read
          exact ⟨[], line, rfl, .nil, closes⟩
        · rintro ⟨front, last, split, written, -⟩
          cases written with
          | nil =>
              cases split
              rfl
          | cons writes =>
              cases split
              exact absurd writes (not_writesAction_of_closing closes)
      case isFalse continues =>
        constructor
        · intro read
          rcases bind_eq_ok_iff.mp read with ⟨action, first, read⟩
          rcases bind_eq_ok_iff.mp read with ⟨⟨more, behind⟩, others, read⟩
          cases read
          rcases ih.mp others with ⟨front, last, rfl, written, closes⟩
          exact ⟨line :: front, last, rfl, .cons (readAction_eq_ok_iff.mp first) written, closes⟩
        · rintro ⟨front, last, split, written, closes⟩
          cases written with
          | nil =>
              cases split
              exact absurd (trimmed_iff.mp closes) continues
          | @cons first action front actions writes written =>
              cases split
              rw [readAction_eq_ok_iff.mpr writes, ih.mpr ⟨front, last, rfl, written, closes⟩]
              rfl

theorem readRule_eq_ok_iff {rule : RuleSpec} :
    readRule states units header ahead = .ok (rule, rest) ↔
      ∃ block, header :: ahead = block ++ rest ∧ WritesRule states units block rule := by
  unfold readRule
  constructor
  · intro read
    rcases bind_eq_ok_iff.mp read with ⟨⟨state, pattern⟩, head, read⟩
    rcases readRuleHeader_eq_ok_iff.mp head with ⟨name, text, split, named, rfl, declared, rfl⟩
    dsimp only at read
    split at read
    case h_2 => cases read
    case h_1 opening unitLine body =>
      split at read
      case isFalse => cases read
      case isTrue opens =>
        rcases bind_eq_ok_iff.mp read with ⟨unit, second, read⟩
        rcases bind_eq_ok_iff.mp read with ⟨⟨actions, behind⟩, third, read⟩
        cases read
        rcases readUnit_eq_ok_iff.mp second with ⟨chars, rfl, unitWritten, notClosing, known⟩
        rcases readActions_eq_ok_iff.mp third with ⟨front, closing, rfl, written, closes⟩
        rcases header with ⟨number, chars⟩
        cases split
        refine ⟨_, ?_, .rule number text named declared (trimmed_iff.mpr opens) unitWritten
          notClosing known written closes⟩
        simp
  · rintro ⟨block, split, writes⟩
    cases writes with
    | @rule state unit opening unitLine closing actionLines actions number pattern named declared
        opens unitWritten notClosing known written closes =>
        rw [List.cons_append, List.cons_append, List.cons_append, List.append_assoc] at split
        cases split
        have head : readRuleHeader states ⟨number, '<' :: (state ++ '>' :: pattern)⟩ =
            .ok (String.ofList state, String.ofList pattern) :=
          readRuleHeader_eq_ok_iff.mpr ⟨state, pattern, rfl, named, rfl, declared, rfl⟩
        have second : readUnit units number unitLine = .ok (String.ofList unit) :=
          readUnit_eq_ok_iff.mpr ⟨unit, rfl, unitWritten, notClosing, known⟩
        have third : readActions states number (actionLines ++ ([closing] ++ rest)) =
            .ok (actions, rest) :=
          readActions_eq_ok_iff.mpr ⟨actionLines, closing, rfl, written, closes⟩
        rw [head]
        show (if trim opening.text = ['\x7b'] then _ else _) = _
        rw [if_pos (trimmed_iff.mp opens), second, third]
        rfl

theorem WritesRule.ne_nil {block : List Line} {rule : RuleSpec}
    (writes : WritesRule states units block rule) : block ≠ [] := by
  cases writes
  exact List.cons_ne_nil _ _

theorem readRules_cons {rule : RuleSpec}
    (first : readRule states units header ahead = .ok (rule, rest)) :
    readRules states units (header :: ahead) = (readRules states units rest).map (rule :: ·) := by
  rw [readRules]
  split
  case h_1 fault read =>
    rw [first] at read
    cases read
  case h_2 other behind read =>
    rw [first] at read
    cases read
    rfl

theorem exists_blocks_of_readRules {rules : List RuleSpec}
    (read : readRules states units ahead = .ok rules) :
    ∃ blocks : List (List Line), ahead = blocks.flatten ∧
      List.Forall₂ (WritesRule states units) blocks rules := by
  induction length : ahead.length using Nat.strongRecOn generalizing ahead rules with
  | _ bound ih =>
      cases ahead with
      | nil =>
          rw [readRules] at read
          cases read
          exact ⟨[], rfl, .nil⟩
      | cons header ahead =>
          rw [readRules] at read
          split at read
          case h_1 => cases read
          case h_2 rule rest first =>
            dsimp only at read
            cases others : readRules states units rest with
            | error fault =>
                rw [others] at read
                cases read
            | ok later =>
                rw [others] at read
                cases read
                have shorter : rest.length < bound :=
                  length ▸ Nat.lt_succ_of_le (readRule_length first)
                rcases readRule_eq_ok_iff.mp first with ⟨block, split, writes⟩
                rcases ih rest.length shorter others rfl with ⟨blocks, same, written⟩
                refine ⟨block :: blocks, ?_, .cons writes written⟩
                rw [List.flatten_cons, ← same, split]

theorem readRules_eq_ok_iff {rules : List RuleSpec} : readRules states units ahead = .ok rules ↔
    ∃ blocks : List (List Line), ahead = blocks.flatten ∧
      List.Forall₂ (WritesRule states units) blocks rules := by
  constructor
  · exact exists_blocks_of_readRules
  · rintro ⟨blocks, rfl, written⟩
    induction written with
    | nil => rw [List.flatten_nil, readRules]
    | @cons block rule blocks rules writes written ih =>
        rcases List.exists_cons_of_ne_nil writes.ne_nil with ⟨header, body, rfl⟩
        have first : readRule states units header (body ++ blocks.flatten) =
            .ok (rule, blocks.flatten) := readRule_eq_ok_iff.mpr ⟨_, rfl, writes⟩
        rw [List.flatten_cons, List.cons_append, readRules_cons first, ih]
        rfl

theorem filter_numberedLines (source : List Char) :
    (numberedLines source).filter (fun line => !isBlank line.text) =
      contentLines ((lines source).map dropReturn) := by
  rw [contentLines, numberedLines, List.zipIdx_map, List.map_map]
  rfl

variable {source : String} {specification : Specification}

theorem written_of_ofText (read : ofText source = .ok specification) :
    Written source specification := by
  rw [ofText, filter_numberedLines, ofLines] at read
  rcases bind_eq_ok_iff.mp read with ⟨⟨declarations, behind⟩, first, read⟩
  rcases bind_eq_ok_iff.mp read with ⟨⟨states, place, others⟩, second, read⟩
  dsimp only at read
  split at read
  case isTrue => cases read
  case isFalse nonempty =>
    rcases bind_eq_ok_iff.mp read with ⟨⟨units, _, ahead⟩, third, read⟩
    rcases bind_eq_ok_iff.mp read with ⟨rules, fourth, read⟩
    cases read
    rcases readDefinitions_eq_ok_iff.mp first with ⟨front, layout, declared, -⟩
    rcases readHeader_eq_ok_iff.mp second with ⟨statesLine, rfl, -, statesWritten⟩
    rcases readHeader_eq_ok_iff.mp third with ⟨unitsLine, rfl, -, unitsWritten⟩
    rcases readRules_eq_ok_iff.mp fourth with ⟨blocks, rfl, rulesWritten⟩
    exact .written (fallsInto_lines source.toList) layout declared
      (DefinitionTable.holds_iff.mpr rfl) statesWritten (by simpa using nonempty) unitsWritten
      rulesWritten

theorem ofText_of_written (written : Written source specification) :
    ofText source = .ok specification := by
  rw [ofText, filter_numberedLines]
  generalize (numberedLines source.toList).length + 1 = endLine
  unfold ofLines
  cases written with
  | @written texts front statesLine unitsLine blocks declarations states units rules definitions
      falls layout declared holds statesWritten nonempty unitsWritten rulesWritten =>
      have ended : ∀ line, (statesLine :: unitsLine :: blocks.flatten).head? = some line →
          line.text.head? ≠ some '\x7b' := by
        rintro line same
        cases same
        have opens : WritesHeader Header.states.keyword statesLine states := statesWritten
        exact opens.not_opens
      have first := readDefinitions_eq_ok_iff.mpr ⟨front, layout, declared, ended⟩
      have second : readHeader .states endLine (statesLine :: unitsLine :: blocks.flatten) =
          .ok (states, statesLine.number, unitsLine :: blocks.flatten) :=
        readHeader_eq_ok_iff.mpr ⟨statesLine, rfl, rfl, statesWritten⟩
      have third : readHeader .units endLine (unitsLine :: blocks.flatten) =
          .ok (units, unitsLine.number, blocks.flatten) :=
        readHeader_eq_ok_iff.mpr ⟨unitsLine, rfl, rfl, unitsWritten⟩
      have fourth := readRules_eq_ok_iff.mpr ⟨blocks, rfl, rulesWritten⟩
      rw [fallsInto_iff.mp falls, first]
      show (readHeader .states endLine _ >>= _) = _
      rw [second]
      show (if states.isEmpty then _ else _) = _
      rw [if_neg (by simpa using nonempty), third]
      show (readRules states units blocks.flatten >>= _) = _
      rw [fourth, DefinitionTable.holds_iff.mp holds]
      rfl

/--
The reader accepts a text if and only if it is written in the format, and what it reads is what
the text says.
-/
theorem ofText_eq_ok_iff_written :
    ofText source = .ok specification ↔ Written source specification :=
  ⟨written_of_ofText, ofText_of_written⟩

end Specification

end MaximalMunch
