import MaximalMunch.Proofs.DecidedCompilation
import MaximalMunch.Proofs.OpaqueReferences

/-!
Definitions that are no patterns by themselves. Only the expanded text of a whole rule is read, so
such a definition goes unnoticed if something closes the groups it leaves open. Without a closing
parenthesis too many in any of the texts that a rule is put together from, nothing does, and the
parentheses around each reference belong together.
-/

namespace MaximalMunch

/-- How many groups are open behind the glyph, unless it closes one where none is open. -/
def Glyph.opensAfter (depth : Nat) : Glyph → Option Nat
  | .plain '(' => some (depth + 1)
  | .plain ')' => if depth = 0 then none else some (depth - 1)
  | _ => some depth

def depthAfter (depth : Nat) (glyphs : List Glyph) : Option Nat :=
  glyphs.foldlM Glyph.opensAfter depth

section Depth

variable {depth more final : Nat} {glyph : Glyph} {glyphs : List Glyph}
  {front rest text : List Char}

theorem depthAfter_cons (depth : Nat) (glyph : Glyph) (glyphs : List Glyph) :
    depthAfter depth (glyph :: glyphs) =
      (glyph.opensAfter depth).bind fun next => depthAfter next glyphs := rfl

theorem depthAfter_append (depth : Nat) (first second : List Glyph) :
    depthAfter depth (first ++ second) =
      (depthAfter depth first).bind fun next => depthAfter next second :=
  List.foldlM_append

theorem opensAfter_plain {char : Char} (opening : char ≠ '(') (closing : char ≠ ')') :
    Glyph.opensAfter depth (.plain char) = some depth := by
  unfold Glyph.opensAfter
  split <;> simp_all

@[simp]
theorem depthAfter_opening (depth : Nat) (glyphs : List Glyph) :
    depthAfter depth (.plain '(' :: glyphs) = depthAfter (depth + 1) glyphs := rfl

@[simp]
theorem depthAfter_closing (depth : Nat) (glyphs : List Glyph) :
    depthAfter (depth + 1) (.plain ')' :: glyphs) = depthAfter depth glyphs := rfl

theorem opensAfter_add (opens : glyph.opensAfter depth = some final) (more : Nat) :
    glyph.opensAfter (depth + more) = some (final + more) := by
  unfold Glyph.opensAfter at opens ⊢
  split at opens
  case h_1 =>
    cases opens
    show some (depth + more + 1) = some (depth + 1 + more)
    rw [Nat.add_right_comm]
  case h_2 =>
    split at opens
    case isTrue => cases opens
    case isFalse positive =>
      cases opens
      show (if depth + more = 0 then none else some (depth + more - 1)) = some (depth - 1 + more)
      rw [if_neg (by omega), Nat.sub_add_comm (Nat.pos_of_ne_zero positive)]
  case h_3 =>
    cases opens
    simp

theorem depthAfter_add (opens : depthAfter depth glyphs = some final) (more : Nat) :
    depthAfter (depth + more) glyphs = some (final + more) := by
  induction glyphs generalizing depth with
  | nil =>
      cases opens
      rfl
  | cons glyph glyphs ih =>
      rw [depthAfter_cons, Option.bind_eq_some_iff] at opens
      rcases opens with ⟨next, first, later⟩
      rw [depthAfter_cons, opensAfter_add first more]
      exact ih later

theorem depthAfter_balanced (balanced : Brackets.round.Balanced text) (depth : Nat) :
    depthAfter depth (Glyph.ofChars text) = some depth := by
  induction balanced generalizing depth with
  | empty => rfl
  | @plain char rest free later ih =>
      simp only [List.mem_cons, List.not_mem_nil, or_false, not_or] at free
      rcases free with ⟨noEscape, noOpening, noClosing⟩
      rw [Glyph.ofChars_plain _ noEscape, depthAfter_cons, opensAfter_plain noOpening noClosing]
      exact ih depth
  | escape char later ih => exact ih depth
  | pair inner later ihInner ihLater =>
      rw [inner.ofChars_pair]
      show depthAfter (depth + 1) (_ ++ .plain ')' :: _) = _
      rw [depthAfter_append, ihInner, Option.bind_some, depthAfter_closing, ihLater]

theorem depthAfter_balanced_append (balanced : Brackets.round.Balanced front) (depth : Nat)
    (rest : List Char) :
    depthAfter depth (Glyph.ofChars (front ++ rest)) = depthAfter depth (Glyph.ofChars rest) := by
  rw [balanced.ofChars_append, depthAfter_append, depthAfter_balanced balanced, Option.bind_some]

theorem exists_depthAfter_of_unclosed (never : Brackets.round.Unclosed text) (depth : Nat) :
    ∃ more, depthAfter depth (Glyph.ofChars text) = some (depth + more) := by
  induction length : text.length using Nat.strong_induction_on generalizing text depth with
  | _ n ih
  cases Brackets.round.shape text with
  | balanced whole => exact ⟨0, depthAfter_balanced whole depth⟩
  | closing before rest => exact absurd before (never _ _ rfl)
  | @opening front rest before later =>
      have shorter : rest.length < n := by simp [← length]; omega
      rcases ih _ shorter later (depth + 1) rfl with ⟨more, opens⟩
      refine ⟨1 + more, ?_⟩
      rw [depthAfter_balanced_append before, ← Nat.add_assoc]
      exact opens
  | dangling before => exact ⟨0, depthAfter_balanced_append before depth _⟩

/-- A group is closed in the text that is not opened in it. -/
def ClosesMore (text : List Char) : Prop :=
  ∃ place, Brackets.round.Unmatched text place ∧ text[place]? = some ')'

theorem ClosesMore.mem (more : ClosesMore text) : ')' ∈ text := by
  rcases more with ⟨place, -, closing⟩
  exact List.mem_of_getElem? closing

theorem exists_depthAfter (fits : ¬ ClosesMore text) :
    ∃ final, depthAfter 0 (Glyph.ofChars text) = some final := by
  cases Brackets.round.shape text with
  | balanced whole => exact ⟨0, depthAfter_balanced whole 0⟩
  | @closing front before rest =>
      have stray := Brackets.unmatched_closing before rest
      exact absurd ⟨front.length, stray, by simp [Brackets.round]⟩ fits
  | opening before never =>
      rcases exists_depthAfter_of_unclosed never 1 with ⟨more, opens⟩
      refine ⟨1 + more, ?_⟩
      rw [depthAfter_balanced_append before]
      exact opens
  | dangling before => exact ⟨0, depthAfter_balanced_append before 0 _⟩

theorem balanced_of_depthAfter (complete : Complete text)
    (opens : depthAfter 0 (Glyph.ofChars text) = some 0) : Brackets.round.Balanced text := by
  cases Brackets.round.shape text with
  | balanced whole => exact whole
  | closing before rest =>
      rw [depthAfter_balanced_append before] at opens
      cases opens
  | @opening front rest before never =>
      rcases exists_depthAfter_of_unclosed never 1 with ⟨more, further⟩
      rw [depthAfter_balanced_append before] at opens
      have both := further.symm.trans opens
      have same := Option.some.inj both
      omega
  | dangling before =>
      cases (complete_append_iff before.complete).mp complete

/--
Behind a text in parentheses no fewer groups are open than before it, and as many only if the text
is balanced.
-/
theorem exists_depthAfter_group (opens : depthAfter 0 (Glyph.ofChars text) = some final)
    (depth : Nat) (rest : List Char) :
    ∃ more, depthAfter depth (Glyph.ofChars ('(' :: (text ++ ')' :: rest))) =
        depthAfter (depth + more) (Glyph.ofChars rest) ∧
      (more = 0 → Brackets.round.Balanced text) := by
  have moved := depthAfter_add opens (depth + 1)
  rw [Nat.zero_add] at moved
  rw [Glyph.ofChars_plain _ (by decide), depthAfter_opening]
  by_cases complete : Complete text
  · refine ⟨final, ?_, ?_⟩
    · rw [ofChars_append complete, depthAfter_append, moved, Option.bind_some,
        Glyph.ofChars_plain _ (by decide), ← Nat.add_assoc, depthAfter_closing, Nat.add_comm]
    · rintro rfl
      exact balanced_of_depthAfter complete opens
  · rcases exists_eq_concat_of_not_complete complete with ⟨front, rfl, before⟩
    refine ⟨final + 1, ?_, nofun⟩
    rw [ofChars_append before, depthAfter_append, Option.bind_eq_some_iff] at moved
    rcases moved with ⟨next, opens, last⟩
    cases last
    -- The backslash escapes the closing parenthesis, so that the group stays open.
    rw [List.append_assoc, ofChars_append before, depthAfter_append, opens, Option.bind_some]
    show depthAfter (final + (depth + 1)) (Glyph.ofChars rest) = _
    rw [Nat.add_comm depth (final + 1), Nat.add_assoc final, Nat.add_comm 1]

end Depth

namespace Piece

/-- The pieces as texts are cut into them: what ends a text is the last piece. -/
inductive Cut : List Piece → Prop
  | nil : Cut []
  | dangling : Cut [.kept .dangling]
  | plain {char : Char} {pieces : List Piece} (noEscape : char ≠ '\\') (later : Cut pieces) :
      Cut (.kept (.plain char) :: pieces)
  | escape (char : Char) {pieces : List Piece} (later : Cut pieces) :
      Cut (.kept (.escaped char) :: pieces)
  | reference (name : String) {pieces : List Piece} (later : Cut pieces) :
      Cut (.reference name :: pieces)
  | unclosed (position : Nat) : Cut [.unclosed position]

theorem cut_ofGlyphs (text : List Char) (position : Nat) :
    Cut (ofGlyphs position (Glyph.ofChars text)) := by
  induction text using reference_induction generalizing position with
  | empty =>
      rw [Glyph.ofChars, ofGlyphs]
      exact .nil
  | dangling =>
      rw [ofGlyphs_dangling]
      exact .dangling
  | escape char rest ih =>
      rw [ofGlyphs_escape]
      exact .escape char (ih _)
  | plain char rest noEscape noBrace ih =>
      rw [ofGlyphs_plain _ noEscape noBrace]
      exact .plain noEscape (ih _)
  | unended rest never =>
      rw [ofGlyphs_unended _ never]
      exact .unclosed position
  | reference name rest balanced ih =>
      rw [ofGlyphs_reference _ balanced]
      exact .reference _ (ih _)

def glyphs : List Piece → List Glyph
  | [] => []
  | .kept glyph :: pieces => glyph :: glyphs pieces
  | _ :: pieces => glyphs pieces

theorem Cut.ofChars_text {pieces : List Piece} (cut : Cut pieces) :
    Glyph.ofChars (Glyph.text (glyphs pieces)) = glyphs pieces := by
  induction cut with
  | nil => rfl
  | dangling => rfl
  | @plain char pieces noEscape later ih =>
      show Glyph.ofChars (char :: Glyph.text (glyphs pieces)) = .plain char :: glyphs pieces
      rw [Glyph.ofChars_plain _ noEscape, ih]
  | @escape char pieces later ih =>
      show Glyph.ofChars ('\\' :: char :: Glyph.text (glyphs pieces)) =
        .escaped char :: glyphs pieces
      rw [Glyph.ofChars, ih]
  | reference name later ih => exact ih
  | unclosed position => rfl

theorem Cut.tail {piece : Piece} {pieces : List Piece} (cut : Cut (piece :: pieces)) :
    Cut pieces := by
  cases cut with
  | dangling => exact .nil
  | plain _ later => exact later
  | escape _ later => exact later
  | reference _ later => exact later
  | unclosed => exact .nil

theorem Cut.ofChars_kept {table : DefinitionTable} {glyph : Glyph} {pieces : List Piece}
    {text : List Char} (cut : Cut (.kept glyph :: pieces)) (expands : Expands table pieces text) :
    Glyph.ofChars (glyph.chars ++ text) = glyph :: Glyph.ofChars text := by
  cases cut with
  | dangling =>
      rw [Expands.nil_iff.mp expands]
      rfl
  | plain noEscape later => exact Glyph.ofChars_plain _ noEscape
  | escape char later => rfl

theorem Cut.complete_chars {glyph : Glyph} {pieces : List Piece}
    (cut : Cut (.kept glyph :: pieces)) (more : pieces ≠ []) : Complete glyph.chars := by
  cases cut with
  | dangling => exact absurd rfl more
  | plain noEscape later => exact complete_singleton noEscape
  | escape char later => exact complete_escape char

end Piece

/-- The text without its references. -/
def outside (text : String) : List Char := Glyph.text (Piece.glyphs (Piece.ofText text))

namespace DefinitionTable

variable {table : DefinitionTable} {name inner : String}

/-- No definition that the name leads to closes more groups than it opens. -/
def Tame (table : DefinitionTable) (name : String) : Prop :=
  ∀ inner body, Relation.ReflTransGen table.RefersTo name inner → table.get? inner = some body →
    ¬ ClosesMore (outside body)

theorem Tame.refers (tame : table.Tame name) (refers : table.RefersTo name inner) :
    table.Tame inner :=
  fun last body path found => tame last body (.head refers path) found

theorem Tame.exists_depthAfter {body : String} (tame : table.Tame name)
    (found : table.get? name = some body) :
    ∃ final, depthAfter 0 (Piece.glyphs (Piece.ofText body)) = some final := by
  have cut : Piece.Cut (Piece.ofText body) := Piece.cut_ofGlyphs body.toList 0
  rw [← cut.ofChars_text]
  exact MaximalMunch.exists_depthAfter (tame name body .refl found)

end DefinitionTable

/--
If no definition closes more groups than it opens, an expansion leaves those groups open that its
pieces do, and further ones only if a definition it refers to directly is not balanced.
-/
theorem Expands.exists_depthAfter {table : DefinitionTable} {pieces : List Piece}
    {text : List Char} {depth final : Nat} (expands : Expands table pieces text)
    (cut : Piece.Cut pieces) (tame : ∀ name, .reference name ∈ pieces → table.Tame name)
    (opens : depthAfter depth (Piece.glyphs pieces) = some final) :
    ∃ more, depthAfter depth (Glyph.ofChars text) = some (final + more) ∧
      (more = 0 → ∀ name body, .reference name ∈ pieces → table.Stands name body →
        Brackets.round.Balanced body.toList) := by
  induction expands generalizing depth final with
  | nil =>
      cases opens
      exact ⟨0, rfl, fun _ name body member => absurd member List.not_mem_nil⟩
  | @kept glyph pieces text later ih =>
      have opens : (glyph.opensAfter depth).bind (depthAfter · (Piece.glyphs pieces)) =
          some final := opens
      rcases Option.bind_eq_some_iff.mp opens with ⟨next, first, opens⟩
      rcases ih cut.tail (fun name member => tame name (List.mem_cons_of_mem _ member)) opens with
        ⟨more, total, groups⟩
      refine ⟨more, ?_, ?_⟩
      · rw [cut.ofChars_kept later, depthAfter_cons, first, Option.bind_some, total]
      · intro none name body member
        exact groups none name body (by simpa using member)
  | @reference name body pieces inner text declared expanded later ihBody ih =>
      have tameName := tame name List.mem_cons_self
      rcases tameName.exists_depthAfter declared with ⟨own, ownOpens⟩
      have tameInner : ∀ other, .reference other ∈ Piece.ofText body → table.Tame other := by
        intro other member
        exact tameName.refers ⟨body, declared, Piece.reference_mem_ofText.mp member⟩
      rcases ihBody (Piece.cut_ofGlyphs _ 0) tameInner ownOpens with ⟨_, innerOpens, -⟩
      -- The pieces behind the group start with the groups open that it leaves.
      rcases exists_depthAfter_group innerOpens depth text with ⟨extra, group, closed⟩
      rcases ih cut.tail (fun other member => tame other (List.mem_cons_of_mem _ member))
        (depthAfter_add opens extra) with ⟨more, total, groups⟩
      refine ⟨extra + more, ?_, ?_⟩
      · have shape : '(' :: inner ++ [')'] ++ text = '(' :: (inner ++ ')' :: text) := by simp
        rw [shape, group, total, Nat.add_assoc]
      · intro none other stood member stands
        have both := Nat.add_eq_zero_iff.mp none
        rcases List.mem_cons.mp member with same | further
        · cases same
          have full : table.Stands name (String.ofList inner) := by
            refine ⟨body, declared, ?_⟩
            rw [String.toList_ofList]
            exact expanded
          rw [stands.unique full, String.toList_ofList]
          exact closed both.1
        · exact groups both.2 other stood further stands

namespace DefinitionTable

variable {table : DefinitionTable} {name text : String} {out : List Char}

/-- The text refers to the name, directly or through other definitions. -/
def Reaches (table : DefinitionTable) (text name : String) : Prop :=
  ∃ first, Mentions text.toList first ∧ Relation.ReflTransGen table.RefersTo first name

/-- A pattern is expanded to what these texts say: itself, and the bodies it reaches. -/
def InPlay (table : DefinitionTable) (pattern text : String) : Prop :=
  text = pattern ∨ ∃ name, table.Reaches pattern name ∧ table.get? name = some text

/-- Nothing that the text is put together from closes more groups than it opens. -/
structure Calm (table : DefinitionTable) (text : String) : Prop where
  own : ¬ ClosesMore (outside text)
  tame : ∀ name, Mentions text.toList name → table.Tame name

theorem calm_of_inPlay
    (fits : ∀ other, table.InPlay text other → ¬ ClosesMore (outside other)) : table.Calm text := by
  refine ⟨fits text (.inl rfl), ?_⟩
  intro name mentions inner body path found
  exact fits body (.inr ⟨inner, ⟨name, mentions, path⟩, found⟩)

theorem Calm.balanced (calm : table.Calm text) (expands : Expands table (Piece.ofText text) out)
    (balanced : Brackets.round.Balanced out) (mentions : Mentions text.toList name) :
    ∀ body, table.Stands name body → Brackets.round.Balanced body.toList := by
  intro body stands
  have cut : Piece.Cut (Piece.ofText text) := Piece.cut_ofGlyphs text.toList 0
  have tame : ∀ other, .reference other ∈ Piece.ofText text → table.Tame other :=
    fun other member => calm.tame other (Piece.reference_mem_ofText.mp member)
  rcases exists_depthAfter calm.own with ⟨final, opens⟩
  rw [outside, cut.ofChars_text] at opens
  rcases expands.exists_depthAfter cut tame opens with ⟨more, total, groups⟩
  rw [depthAfter_balanced balanced, Option.some.injEq] at total
  have none : more = 0 := by omega
  exact groups none name body (Piece.reference_mem_ofText.mpr mentions) stands

theorem Calm.balanced_of_reaches (calm : table.Calm text)
    (expands : Expands table (Piece.ofText text) out) (balanced : Brackets.round.Balanced out)
    (reaches : table.Reaches text name) :
    ∀ body, table.Stands name body → Brackets.round.Balanced body.toList := by
  -- Behind a first reference the definition is the text whose references come next.
  rcases reaches with ⟨first, mentions, path⟩
  induction path using Relation.ReflTransGen.head_induction_on generalizing text out with
  | refl => exact calm.balanced expands balanced mentions
  | @head first next refers path ih =>
      rcases refers with ⟨raw, found, further⟩
      have calmRaw : table.Calm raw := by
        refine ⟨calm.tame first mentions first raw .refl found, ?_⟩
        intro inner inside
        exact (calm.tame first mentions).refers ⟨raw, found, inside⟩
      rcases expands.exists_stands (Piece.reference_mem_ofText.mpr mentions) with
        ⟨inner, stands, -⟩
      have balancedInner := calm.balanced expands balanced mentions inner stands
      rcases stands with ⟨same, alsoFound, expandsInner⟩
      rw [found] at alsoFound
      cases alsoFound
      exact ih calmRaw expandsInner balancedInner further

end DefinitionTable

theorem Expands.exists_split {table : DefinitionTable} {front back : List Piece} {name : String}
    {out : List Char} (cut : Piece.Cut (front ++ .reference name :: back))
    (expands : Expands table (front ++ .reference name :: back) out) :
    ∃ before body behind, Complete before ∧ Expands table front before ∧ table.Stands name body ∧
      Expands table back behind ∧ out = before ++ '(' :: (body.toList ++ ')' :: behind) := by
  induction front generalizing out with
  | nil =>
      rcases Expands.reference_iff.mp expands with
        ⟨raw, inner, behind, declared, expanded, later, rfl⟩
      refine ⟨[], String.ofList inner, behind, complete_nil, .nil, ⟨raw, declared, ?_⟩, later, ?_⟩
      · rw [String.toList_ofList]
        exact expanded
      · simp
  | cons piece front ih =>
      have cutTail := cut.tail
      cases piece with
      | kept glyph =>
          rcases Expands.kept_iff.mp expands with ⟨later, further, rfl⟩
          rcases ih cutTail further with ⟨before, body, behind, complete, first, stands, last, rfl⟩
          have whole := cut.complete_chars (by simp)
          exact ⟨glyph.chars ++ before, body, behind, whole.append complete, .kept first, stands,
            last, by simp⟩
      | reference other =>
          rcases Expands.reference_iff.mp expands with
            ⟨raw, inner, later, declared, expanded, further, rfl⟩
          rcases ih cutTail further with ⟨before, body, behind, complete, first, stands, last, rfl⟩
          have group : Complete ('(' :: inner ++ [')']) := complete_concat (by decide)
          exact ⟨'(' :: inner ++ [')'] ++ before, body, behind, group.append complete,
            .reference declared expanded first, stands, last, by simp⟩
      | unclosed position => cases expands

namespace Specification

variable {source : String} {specification : Specification} {rule : RuleSpec}
  {table resolved : DefinitionTable} {pattern : String}

theorem exists_balanced_of_admits (resolves : table.resolve = .ok resolved)
    (admits : resolved.Admits pattern) :
    ∃ expanded, Expands table (Piece.ofText pattern) expanded ∧
      Brackets.round.Balanced expanded := by
  rcases admits with ⟨later, fragment, compiled⟩
  rcases Graph.compile_eq_ok compiled with ⟨normalized, choices, substituted, read, -⟩
  rcases read_eq_ok_iff.mp read with ⟨patterns, derived, -⟩
  exact ⟨normalized.toList, DefinitionTable.expands_of_substitute resolves substituted,
    derived.balanced⟩

theorem admits_iff_sound (resolves : table.resolve = .ok resolved) : resolved.Admits pattern ↔
    ∃ expanded, Unfolds table pattern.toList 0 expanded ∧ Pattern.Sound expanded := by
  constructor
  · intro admits
    rcases exists_balanced_of_admits resolves admits with ⟨expanded, expands, balanced⟩
    exact ⟨expanded, Expands.iff_unfolds.mp expands, Pattern.sound_of_balanced balanced⟩
  · rintro ⟨expanded, unfolds, sound⟩
    rw [← String.toList_ofList (l := expanded)] at unfolds sound
    have substituted := (DefinitionTable.substitute_eq_ok_iff resolves).mpr unfolds
    rcases Pattern.readFrom_classified (String.ofList expanded).toList with
      ⟨⟨patterns, read⟩, -⟩ | ⟨draft, -, faulty⟩
    · exact ⟨_, _, Graph.compile_of_read substituted read⟩
    · exact absurd sound faulty.not_sound

/-- The names in a source that was read are known, so that the patterns alone can fail. -/
theorem exists_generate_iff (read : ofText source = .ok specification) :
    (∃ bundle, generate source = .ok bundle) ↔
      ∃ resolved, specification.definitions.resolve = .ok resolved ∧
        ∀ rule ∈ specification.rules, resolved.Admits rule.pattern := by
  rw [generate_of_ofText read, ← layOut_eq_ok_iff]
  constructor
  · rintro ⟨bundle, compiled⟩
    rcases compile_eq_ok compiled with ⟨graph, laid, lays, -⟩
    exact ⟨_, lays⟩
  · rintro ⟨⟨graph, laid⟩, lays⟩
    rcases consistent_of_layOut (written_of_ofText read) lays with ⟨consistent, -⟩
    rw [compile_of_layOut lays, Bundle.validate_eq_ok_iff.mpr consistent]
    exact ⟨_, rfl⟩

theorem generate_eq_badPattern (read : ofText source = .ok specification)
    (fails : ¬ ∃ bundle, generate source = .ok bundle) :
    ∃ line fault, generate source = .error (.specification ⟨line, .badPattern fault⟩) := by
  rw [exists_generate_iff read, ← layOut_eq_ok_iff] at fails
  cases lays : specification.layOut with
  | ok result => exact absurd ⟨result, lays⟩ fails
  | error error =>
      have failed : specification.compile = .error (.specification error) := by
        rw [compile, lays]
        rfl
      rw [generate_of_ofText read, failed]
      cases fails_of_layOut (written_of_ofText read) lays with
      | reading unread =>
          rw [read] at unread
          cases unread
      | resolving => exact ⟨_, _, rfl⟩
      | compiling => exact ⟨_, _, rfl⟩

/--
A source that was read gives a lexer if and only if its definitions resolve and its rules expand
to patterns, and fails with a fault of a pattern otherwise. If a rule of a lexer leads to a
definition that is no pattern by itself, a text of the rule closes more groups than it opens.
Without such texts each reference of the rule is one group.
-/
theorem generate_groups (read : ofText source = .ok specification) :
    ((∃ bundle, generate source = .ok bundle) ↔
      specification.definitions.Resolvable ∧ ∀ rule ∈ specification.rules, ∃ expanded,
        Unfolds specification.definitions rule.pattern.toList 0 expanded ∧
          Pattern.Sound expanded) ∧
    ((¬ ∃ bundle, generate source = .ok bundle) →
      ∃ line fault, generate source = .error (.specification ⟨line, .badPattern fault⟩)) ∧
    ∀ bundle, generate source = .ok bundle → ∀ rule ∈ specification.rules,
      (∀ name body, specification.definitions.Reaches rule.pattern name →
        specification.definitions.Stands name body → ¬ Pattern.Sound body.toList →
          ∃ text, specification.definitions.InPlay rule.pattern text ∧
            ClosesMore (outside text)) ∧
      ((∀ text, specification.definitions.InPlay rule.pattern text →
          ¬ ClosesMore (outside text)) →
        ∀ front name back, Piece.ofText rule.pattern = front ++ .reference name :: back →
          ∃ before body behind, Expands specification.definitions front before ∧
            specification.definitions.Stands name body ∧
            Expands specification.definitions back behind ∧
            Unfolds specification.definitions rule.pattern.toList 0
              (before ++ '(' :: (body.toList ++ ')' :: behind)) ∧
            Brackets.round.Matched (before ++ '(' :: (body.toList ++ ')' :: behind))
              before.length (before.length + 1 + body.toList.length)) := by
  refine ⟨?succeeds, generate_eq_badPattern read, ?_⟩
  case succeeds =>
    rw [exists_generate_iff read, ← DefinitionTable.exists_resolve_iff]
    constructor
    · rintro ⟨resolved, resolves, admitted⟩
      exact ⟨⟨resolved, resolves⟩, fun rule listed =>
        (admits_iff_sound resolves).mp (admitted rule listed)⟩
    · rintro ⟨⟨resolved, resolves⟩, sound⟩
      exact ⟨resolved, resolves, fun rule listed =>
        (admits_iff_sound resolves).mpr (sound rule listed)⟩
  intro bundle made rule listed
  rcases (exists_generate_iff read).mp ⟨bundle, made⟩ with ⟨resolved, resolves, admitted⟩
  rcases exists_balanced_of_admits resolves (admitted rule listed) with
    ⟨expanded, expands, balanced⟩
  refine ⟨?stray, ?grouped⟩
  case stray =>
    intro name body reaches stands unsound
    by_contra none
    push Not at none
    have calm := DefinitionTable.calm_of_inPlay none
    have whole := calm.balanced_of_reaches expands balanced reaches body stands
    exact unsound (Pattern.sound_of_balanced whole)
  case grouped =>
    intro fits front name back split
    have calm := DefinitionTable.calm_of_inPlay fits
    have cut : Piece.Cut (Piece.ofText rule.pattern) := Piece.cut_ofGlyphs _ 0
    have mentions : Mentions rule.pattern.toList name := by
      apply Piece.reference_mem_ofText.mp
      rw [split]
      simp
    have unfolds := Expands.iff_unfolds.mp expands
    have inner := calm.balanced expands balanced mentions
    rw [split] at cut expands
    rcases expands.exists_split cut with
      ⟨before, body, behind, complete, first, stands, last, rfl⟩
    refine ⟨before, body, behind, first, stands, last, unfolds, ?_⟩
    exact (Brackets.matched_length_iff complete).mpr
      ⟨body.toList, behind, rfl, inner body stands, rfl⟩

def groupSource (body pattern : String) : String :=
  "\x7bd\x7d " ++ body ++ "\n%X S\n%L A\n<S>" ++ pattern ++ "\n\x7b\nA\n\x7d"

def groupSpecification (body pattern : String) : Specification where
  definitions := ⟨[("d", body)]⟩
  definitionLines := [("d", 1)]
  states := ["S"]
  units := ["A"]
  rules := [⟨"S", pattern, "A", [], 4⟩]

theorem not_closesMore_of_inPlay {body pattern text : String}
    (inPlay : (groupSpecification body pattern).definitions.InPlay pattern text)
    (own : ')' ∉ outside pattern) (inner : ')' ∉ outside body) : ¬ ClosesMore (outside text) := by
  intro more
  rcases inPlay with rfl | ⟨name, -, found⟩
  · exact own more.mem
  · rcases List.lookup_eq_some_iff.mp found with ⟨before, after, split, -⟩
    have listed : (name, text) ∈ [("d", body)] := by
      rw [show [("d", body)] = before ++ (name, text) :: after from split]
      simp
    cases List.mem_singleton.mp listed
    exact inner more.mem

theorem generate_groups_star :
    (∃ line fault, generate (groupSource "(a" "\x7bd\x7dx") =
        .error (.specification ⟨line, .badPattern fault⟩)) ∧
      (∃ bundle, generate (groupSource "a)(b" "\x7bd\x7d") = .ok bundle) ∧
      Unfolds ⟨[("d", "a|b")]⟩ "x\x7bd\x7d*".toList 0 "x(a|b)*".toList ∧
      Brackets.round.Matched "x(a|b)*".toList 1 5 := by
  refine ⟨?refused, ?unnoticed, ?grouped⟩
  case refused =>
    have read : ofText (groupSource "(a" "\x7bd\x7dx") =
        .ok (groupSpecification "(a" "\x7bd\x7dx") := by cbv
    have pieces : Piece.ofText "\x7bd\x7dx" = [.reference "d", .kept (.plain 'x')] := by cbv
    have resolves : DefinitionTable.resolve ⟨[("d", "(a")]⟩ = .ok ⟨[("d", "(a")]⟩ := by cbv
    have stands := DefinitionTable.agrees_of_resolve resolves "d" "(a" rfl
    have mentions : Mentions "\x7bd\x7dx".toList "d" := by
      apply Piece.reference_mem_ofText.mp
      rw [pieces]
      exact List.mem_cons_self
    have never : Brackets.round.Unclosed ['a'] := by
      intro inside after split _
      have member : ')' ∈ ['a'] := by
        rw [split]
        exact List.mem_append_right _ List.mem_cons_self
      exact absurd member (by decide)
    have unsound : ¬ Pattern.Sound "(a".toList :=
      fun sound => sound.paired 0 (Brackets.unmatched_opening .empty never)
    have own : outside "\x7bd\x7dx" = ['x'] := by cbv
    have inner : outside "(a" = ['(', 'a'] := by cbv
    rcases generate_groups read with ⟨-, fails, strays⟩
    apply fails
    rintro ⟨bundle, made⟩
    rcases (strays bundle made _ List.mem_cons_self).1 "d" "(a" ⟨"d", mentions, .refl⟩ stands
      unsound with ⟨text, inPlay, more⟩
    exact not_closesMore_of_inPlay inPlay (by rw [own]; decide) (by rw [inner]; decide) more
  case unnoticed =>
    have read : ofText (groupSource "a)(b" "\x7bd\x7d") =
        .ok (groupSpecification "a)(b" "\x7bd\x7d") := by cbv
    have resolves : DefinitionTable.resolve ⟨[("d", "a)(b")]⟩ = .ok ⟨[("d", "a)(b")]⟩ := by cbv
    have substituted : DefinitionTable.substitute ⟨[("d", "a)(b")]⟩ "\x7bd\x7d" =
        .ok "(a)(b)" := by cbv
    have unfolds := (DefinitionTable.substitute_eq_ok_iff resolves).mp substituted
    have inside : ∀ char ∈ ['a', 'b'], Brackets.round.Balanced [char] := by
      intro char member
      refine .plain ?_ .empty
      rcases List.mem_pair.mp member with rfl | rfl <;> decide
    have balanced : Brackets.round.Balanced ['(', 'a', ')', '(', 'b', ')'] :=
      .pair (inside 'a' (by simp)) (.pair (inside 'b' (by simp)) .empty)
    apply (generate_groups read).1.mpr
    refine ⟨DefinitionTable.exists_resolve_iff.mp ⟨_, resolves⟩, ?_⟩
    intro rule listed
    cases List.mem_singleton.mp listed
    exact ⟨_, unfolds, Pattern.sound_of_balanced balanced⟩
  case grouped =>
    have read : ofText (groupSource "a|b" "x\x7bd\x7d*") =
        .ok (groupSpecification "a|b" "x\x7bd\x7d*") := by cbv
    have made : (generate (groupSource "a|b" "x\x7bd\x7d*")).isOk = true := by cbv
    have pieces : Piece.ofText "x\x7bd\x7d*" =
        [.kept (.plain 'x')] ++ .reference "d" :: [.kept (.plain '*')] := by cbv
    have resolves : DefinitionTable.resolve ⟨[("d", "a|b")]⟩ = .ok ⟨[("d", "a|b")]⟩ := by cbv
    have own : outside "x\x7bd\x7d*" = ['x', '*'] := by cbv
    have inner : outside "a|b" = ['a', '|', 'b'] := by cbv
    cases generated : generate (groupSource "a|b" "x\x7bd\x7d*") with
    | error error =>
        rw [generated] at made
        cases made
    | ok bundle =>
        have grouped := ((generate_groups read).2.2 bundle generated _ List.mem_cons_self).2
        rcases grouped (fun text inPlay => not_closesMore_of_inPlay inPlay
          (by rw [own]; decide) (by rw [inner]; decide)) _ _ _ pieces with
          ⟨before, body, behind, first, stands, last, unfolds, matched⟩
        have front : before = ['x'] := first.unique (.kept .nil)
        have inner : body = "a|b" :=
          stands.unique (DefinitionTable.agrees_of_resolve resolves "d" "a|b" rfl)
        have back : behind = ['*'] := last.unique (.kept .nil)
        subst front inner back
        exact ⟨unfolds, matched⟩

/-- The parentheses of the definition pair up with those that are put around it. -/
theorem not_generate_refuses_unsound :
    ¬ ∀ source specification rule name body, ofText source = .ok specification →
      rule ∈ specification.rules → specification.definitions.Reaches rule.pattern name →
      specification.definitions.Stands name body → ¬ Pattern.Sound body.toList →
        ∃ line fault, generate source = .error (.specification ⟨line, .badPattern fault⟩) := by
  intro every
  have read : ofText (groupSource "a)(b" "\x7bd\x7d") =
      .ok (groupSpecification "a)(b" "\x7bd\x7d") := by cbv
  have made : (generate (groupSource "a)(b" "\x7bd\x7d")).isOk = true := by cbv
  have pieces : Piece.ofText "\x7bd\x7d" = [.reference "d"] := by cbv
  have resolves : DefinitionTable.resolve ⟨[("d", "a)(b")]⟩ = .ok ⟨[("d", "a)(b")]⟩ := by cbv
  have stands := DefinitionTable.agrees_of_resolve resolves "d" "a)(b" rfl
  have mentions : Mentions "\x7bd\x7d".toList "d" := by
    apply Piece.reference_mem_ofText.mp
    rw [pieces]
    exact List.mem_cons_self
  have unsound : ¬ Pattern.Sound "a)(b".toList := by
    intro sound
    have balanced : Brackets.round.Balanced ['a'] := .plain (by decide) .empty
    exact sound.paired 1 (Brackets.unmatched_closing balanced ['(', 'b'])
  rcases every _ _ _ "d" "a)(b" read List.mem_cons_self ⟨"d", mentions, .refl⟩ stands unsound with
    ⟨line, fault, failed⟩
  rw [failed] at made
  cases made

end Specification

end MaximalMunch
