import MaximalMunch.Proofs.Brackets
import MaximalMunch.Proofs.CompilerCorrectness

/-!
Which pattern texts are refused, and what is reported of them. Reading gets as far as the text is
balanced, so the leftmost parenthesis without partner is the fault, and without one a lone
backslash at the end.
-/

namespace MaximalMunch

namespace Pattern

variable {position opened : Nat} {level outermost : Level} {enclosing : List (Nat × Level)}
  {front rest text : List Char}

theorem readFrom_plain {char : Char} (free : char ∉ ['\\', '(', ')']) (position : Nat)
    (level : Level) (enclosing : List (Nat × Level)) (glyphs : List Glyph) :
    ∃ next, readFrom position level enclosing (.plain char :: glyphs) =
      readFrom (position + 1) next enclosing glyphs := by
  by_cases star : char = '*'
  · rw [star, readFrom_star]
    exact ⟨_, rfl⟩
  by_cases bar : char = '|'
  · rw [bar, readFrom_bar]
    exact ⟨_, rfl⟩
  by_cases dollar : char = '$'
  · rw [dollar, readFrom_dollar]
    exact ⟨_, rfl⟩
  · have symbol : char ∉ reserved := by
      simp only [List.mem_cons, List.not_mem_nil, or_false, not_or] at free
      simp [reserved, free, bar, dollar]
    rw [readFrom_symbol symbol fun same => absurd same star]
    exact ⟨_, rfl⟩

/-- Behind a balanced text the same groups are open as before it. -/
theorem readFrom_balanced (balanced : Brackets.round.Balanced front) (position : Nat)
    (level : Level) (enclosing : List (Nat × Level)) (rest : List Char) :
    ∃ next, readFrom position level enclosing (Glyph.ofChars (front ++ rest)) =
      readFrom (position + front.length) next enclosing (Glyph.ofChars rest) := by
  induction balanced generalizing position level enclosing rest with
  | empty => exact ⟨level, rfl⟩
  | @plain char _ free later ih =>
      have noEscape : char ≠ '\\' := fun same => free (by simp [same])
      rw [List.cons_append, Glyph.ofChars_plain _ noEscape]
      rcases readFrom_plain free position level enclosing (Glyph.ofChars (_ ++ rest)) with
        ⟨next, read⟩
      rcases ih (position + 1) next enclosing rest with ⟨last, readLater⟩
      refine ⟨last, ?_⟩
      rw [read, readLater, List.length_cons, Nat.add_assoc, Nat.add_comm 1]
  | escape char later ih =>
      rcases ih (position + 2) (level.push (.symbol (Glyph.unescape char))) enclosing rest with
        ⟨last, readLater⟩
      refine ⟨last, ?_⟩
      rw [List.cons_append, List.cons_append, Glyph.ofChars, readFrom_escaped, readLater,
        List.length_cons, List.length_cons, Nat.add_assoc, Nat.add_comm 2]
  | @pair inside after inner later ihInner ihLater =>
      have shape : Brackets.round.opening :: (inside ++ Brackets.round.closing :: after) ++ rest =
          '(' :: (inside ++ ')' :: (after ++ rest)) := by simp [Brackets.round]
      rcases ihInner (position + 1) {} ((position, level) :: enclosing) (')' :: (after ++ rest))
        with ⟨last, readInner⟩
      rcases ihLater (position + 1 + inside.length + 1) (level.push last.close) enclosing rest
        with ⟨next, readLater⟩
      refine ⟨next, ?_⟩
      rw [shape, Glyph.ofChars_plain _ (by decide), readFrom_opening, readInner,
        Glyph.ofChars_plain _ (by decide), readFrom_closing, readLater]
      congr 1
      simp
      omega

theorem finish_of_open (outside : enclosing.getLast? = some (opened, outermost))
    (whole : Except Draft Pattern) :
    finish enclosing whole = .error (outermost.draft false opened .unclosedGroup) := by
  simp [finish, outside]

/-- Inside groups that are never closed, reading ends with the outermost of them. -/
theorem readFrom_unclosed (never : Brackets.round.Unclosed text)
    (outside : enclosing.getLast? = some (opened, outermost)) :
    readFrom position level enclosing (Glyph.ofChars text) =
      .error (outermost.draft false opened .unclosedGroup) := by
  induction length : text.length using Nat.strong_induction_on
    generalizing text position level enclosing with
  | _ n ih
  cases Brackets.round.shape text with
  | balanced whole =>
      rcases readFrom_balanced whole position level enclosing [] with ⟨next, read⟩
      rw [← List.append_nil text, read]
      exact finish_of_open outside _
  | closing before rest => exact absurd before (never _ _ rfl)
  | @opening front rest before later =>
      have shorter : rest.length < n := by simp [← length]; omega
      rcases readFrom_balanced before position level enclosing ('(' :: rest) with ⟨next, read⟩
      have still : ((position + front.length, next) :: enclosing).getLast? =
          some (opened, outermost) := by
        rw [List.getLast?_cons, outside]
        rfl
      show readFrom position level enclosing (Glyph.ofChars (front ++ '(' :: rest)) = _
      rw [read, Glyph.ofChars_plain _ (by decide), readFrom_opening]
      exact ih _ shorter later still rfl
  | dangling before =>
      rcases readFrom_balanced before position level enclosing ['\\'] with ⟨next, read⟩
      rw [read]
      exact finish_of_open outside _

/-- What is wrong with a text, and where. -/
inductive Fault (text : List Char) : Nat → FaultKind → Prop
  | group {position : Nat}
      (leftmost : IsLeast {place | Brackets.round.Unmatched text place} position)
      (char : text[position]? = some '(') : Fault text position .unclosedGroup
  | paren {position : Nat}
      (leftmost : IsLeast {place | Brackets.round.Unmatched text place} position)
      (char : text[position]? = some ')') : Fault text position .unmatchedParen
  | escape {position : Nat} (paired : ∀ place, ¬ Brackets.round.Unmatched text place)
      (odd : trailingBackslashes text % 2 = 1) (last : position + 1 = text.length) :
      Fault text position .danglingEscape

/-- Every parenthesis has its partner and no backslash stands alone at the end. -/
structure Sound (text : List Char) : Prop where
  paired : ∀ place, ¬ Brackets.round.Unmatched text place
  complete : trailingBackslashes text % 2 = 0

theorem Fault.not_sound {kind : FaultKind} (fault : Fault text position kind) : ¬ Sound text := by
  intro sound
  cases fault with
  | group leftmost char => exact sound.paired position leftmost.1
  | paren leftmost char => exact sound.paired position leftmost.1
  | escape paired odd last =>
      have even := sound.complete
      omega

theorem sound_of_balanced (balanced : Brackets.round.Balanced text) : Sound text := by
  constructor
  · intro place unmatched
    exact unmatched.2 (balanced.paired place unmatched.1)
  · exact balanced.complete

theorem isLeast_of_balanced (balanced : Brackets.round.Balanced front)
    (unmatched : Brackets.round.Unmatched (front ++ rest) front.length) :
    IsLeast {place | Brackets.round.Unmatched (front ++ rest) place} front.length := by
  refine ⟨unmatched, ?_⟩
  intro place also
  apply Nat.le_of_not_lt
  intro inside
  exact balanced.not_unmatched inside also

theorem fault_of_dangling (balanced : Brackets.round.Balanced front) :
    Fault (front ++ ['\\']) front.length .danglingEscape := by
  apply Fault.escape
  · intro place unmatched
    have inside := unmatched.1.lt_length
    rw [List.length_append, List.length_singleton] at inside
    rcases Nat.lt_succ_iff_lt_or_eq.mp inside with before | last
    · exact balanced.not_unmatched before unmatched
    · have here := unmatched.1
      rw [last, ← Nat.add_zero front.length, Brackets.stands_append balanced.complete] at here
      exact Brackets.not_stands_singleton (by decide) (by decide) here
  · rw [trailingBackslashes_append_mod balanced.complete]
    rfl
  · rw [List.length_append, List.length_singleton]

/-- Reading succeeds on the sound texts, and reports the fault of any other. -/
theorem readFrom_classified (text : List Char) :
    (∃ pattern, readFrom 0 {} [] (Glyph.ofChars text) = .ok pattern) ∧ Sound text ∨
      ∃ draft, readFrom 0 {} [] (Glyph.ofChars text) = .error draft ∧
        Fault text draft.position draft.kind := by
  cases Brackets.round.shape text with
  | balanced whole =>
      rcases readFrom_balanced whole 0 {} [] [] with ⟨next, read⟩
      rw [List.append_nil] at read
      exact .inl ⟨⟨next.close, read⟩, sound_of_balanced whole⟩
  | @closing front before rest =>
      rcases readFrom_balanced before 0 {} [] (')' :: rest) with ⟨next, read⟩
      rw [Nat.zero_add, Glyph.ofChars_plain _ (by decide)] at read
      refine .inr ⟨_, read, .paren ?_ ?_⟩
      · exact isLeast_of_balanced before (Brackets.unmatched_closing before rest)
      · show (front ++ ')' :: rest)[front.length]? = some ')'
        simp
  | @opening front rest before never =>
      rcases readFrom_balanced before 0 {} [] ('(' :: rest) with ⟨next, read⟩
      rw [Nat.zero_add, Glyph.ofChars_plain _ (by decide), readFrom_opening,
        readFrom_unclosed never rfl] at read
      refine .inr ⟨_, read, .group ?_ ?_⟩
      · exact isLeast_of_balanced before (Brackets.unmatched_opening before never)
      · show (front ++ '(' :: rest)[front.length]? = some '('
        simp
  | @dangling front before =>
      rcases readFrom_balanced before 0 {} [] ['\\'] with ⟨next, read⟩
      rw [Nat.zero_add] at read
      exact .inr ⟨_, read, fault_of_dangling before⟩

end Pattern

namespace Graph

variable {graph later : Graph} {text normalized : String} {fault : PatternError}

theorem compile_of_read {pattern : Pattern}
    (substituted : graph.definitions.substitute text = .ok normalized)
    (read : Pattern.read normalized = .ok pattern) :
    graph.compile text =
      ((graph.addPattern pattern).1, .ok (graph.addPattern pattern).2) := by
  simp [compile, substituted, read]

theorem compile_of_draft {draft : Draft}
    (substituted : graph.definitions.substitute text = .ok normalized)
    (read : Pattern.read normalized = .error draft) :
    graph.compile text =
      (graph.addDraft draft, .error (.malformed normalized draft.position draft.kind)) := by
  simp [compile, substituted, read]

/--
A text compiles if and only if its expansion is sound. Otherwise the error carries the expansion
and the fault of it.
-/
theorem compile_isOk_iff_sound (substituted : graph.definitions.substitute text = .ok normalized) :
    ((∃ later fragment, graph.compile text = (later, .ok fragment)) ↔
      Pattern.Sound normalized.toList) ∧
    ∀ later fault, graph.compile text = (later, .error fault) →
      ∃ position kind, fault = .malformed normalized position kind ∧
        Pattern.Fault normalized.toList position kind := by
  rcases Pattern.readFrom_classified normalized.toList with
    ⟨⟨pattern, read⟩, sound⟩ | ⟨draft, read, faulty⟩
  · have compiled := compile_of_read substituted read
    constructor
    · exact ⟨fun _ => sound, fun _ => ⟨_, _, compiled⟩⟩
    · intro later fault failed
      rw [compiled] at failed
      cases failed
  · have compiled := compile_of_draft substituted read
    constructor
    · constructor
      · intro succeeds
        rcases succeeds with ⟨later, fragment, succeeds⟩
        rw [compiled] at succeeds
        cases succeeds
      · exact fun sound => absurd sound faulty.not_sound
    · intro later fault failed
      rw [compiled] at failed
      cases failed
      exact ⟨_, _, rfl, faulty⟩

theorem compile_isOk_iff_sound_stray :
    withForeignEdges.definitions.substitute "\x7bBit\x7d)(|\\" = .ok "(0|1))(|\\" ∧
      (withForeignEdges.compile "\x7bBit\x7d)(|\\").2 =
        .error (.malformed "(0|1))(|\\" 5 .unmatchedParen) ∧
      Pattern.Fault ['(', '0', '|', '1', ')', ')', '(', '|', '\\'] 5 .unmatchedParen := by
  have substituted : withForeignEdges.definitions.substitute "\x7bBit\x7d)(|\\" =
      .ok "(0|1))(|\\" := by cbv
  have failed : (withForeignEdges.compile "\x7bBit\x7d)(|\\").2 =
      .error (.malformed "(0|1))(|\\" 5 .unmatchedParen) := by cbv
  rcases (compile_isOk_iff_sound substituted).2 _ _ (Prod.ext rfl failed) with
    ⟨position, kind, same, faulty⟩
  cases same
  exact ⟨substituted, failed, faulty⟩

end Graph

end MaximalMunch
