import MaximalMunch.Proofs.DefinitionResolution

/-!
Expanding a text in one pass by a resolved table comes to the same as unfolding its references,
and those in the bodies that are put in, by the table as it was declared. Nothing is left to
unfold afterwards, so that resolving and expanding a second time change nothing.
-/

namespace MaximalMunch

/--
Going over the text from a position on, every reference is replaced by the unfolded body of its
definition in parentheses.
-/
inductive Unfolds (table : DefinitionTable) : List Char → Nat → List Char → Prop
  | done {text : List Char} {position : Nat} (ends : position = text.length) :
      Unfolds table text position []
  | kept {text later : List Char} {position : Nat} {char : Char}
      (stands : text[position]? = some char) (free : ¬ Bare text '\x7b' position)
      (behind : Unfolds table text (position + 1) later) :
      Unfolds table text position (char :: later)
  | reference {text inner later : List Char} {first last : Nat} {body : String}
      (closed : Brackets.curly.Matched text first last)
      (declared : table.get? (String.ofList (text.extract (first + 1) last)) = some body)
      (unfolded : Unfolds table body.toList 0 inner)
      (behind : Unfolds table text (last + 1) later) :
      Unfolds table text first ('(' :: inner ++ [')'] ++ later)

/-- No reference begins in the text. -/
def Settled (text : List Char) : Prop := ∀ position, ¬ Bare text '\x7b' position

section Settled

variable {front rest : List Char} {char : Char} {position : Nat}

theorem Settled.append (settled : Settled front) (complete : Complete front)
    (later : Settled rest) : Settled (front ++ rest) := by
  intro position
  by_cases inside : position < front.length
  · rw [bare_append_left inside]
    exact settled position
  · rcases Nat.exists_eq_add_of_le (Nat.le_of_not_lt inside) with ⟨place, rfl⟩
    rw [bare_append complete]
    exact later place

theorem settled_nil : Settled [] := by
  intro position bare
  exact Nat.not_lt_zero _ bare.lt_length

theorem settled_singleton (free : char ≠ '\x7b') : Settled [char] := by
  intro position bare
  have first : position = 0 := Nat.lt_one_iff.mp bare.lt_length
  rw [first, bare_head_iff] at bare
  exact free bare

theorem settled_escape (char : Char) : Settled ['\\', char] := by
  intro position bare
  have inside : position < 2 := bare.lt_length
  rcases Nat.le_one_iff_eq_zero_or_eq_one.mp (Nat.le_of_lt_succ inside) with rfl | rfl
  · rw [bare_head_iff] at bare
    cases bare
  · exact Piece.not_bare_escaped bare

theorem Settled.concat (settled : Settled front) (free : char ≠ '\x7b') :
    Settled (front ++ [char]) := by
  intro position bare
  by_cases inside : position < front.length
  · exact settled position ((bare_append_left inside).mp bare)
  · have within := bare.lt_length
    rw [List.length_append, List.length_singleton] at within
    have last : position = front.length := by omega
    have stands := bare.1
    rw [last, List.getElem?_concat_length] at stands
    exact free (Option.some.inj stands)

end Settled

namespace Unfolds

variable {table : DefinitionTable} {text out front : List Char} {position last : Nat} {char : Char}

/-- What is unfolded at an escaped character goes behind the backslash that escapes it. -/
theorem settled_behind (unfolds : Unfolds table text position out) :
    (¬ Escaped text position → Settled out) ∧ (Escaped text position → Settled ('\\' :: out)) := by
  induction unfolds with
  | done => exact ⟨fun _ => settled_nil, fun _ => settled_singleton (by decide)⟩
  | @kept text later position char stands free behind ih =>
      constructor
      · intro even
        by_cases backslash : char = '\\'
        · rw [backslash] at stands ⊢
          exact ih.2 ((escaped_succ stands).mpr even)
        · have noBrace : char ≠ '\x7b' := fun same => free ⟨same ▸ stands, even⟩
          have rest := ih.1 (not_escaped_succ stands backslash)
          exact (settled_singleton noBrace).append (complete_singleton backslash) rest
      · intro odd
        have even : ¬ Escaped text (position + 1) := by
          by_cases backslash : char = '\\'
          · rw [backslash] at stands
            rw [escaped_succ stands]
            exact not_not_intro odd
          · exact not_escaped_succ stands backslash
        exact (settled_escape char).append (complete_escape char) (ih.1 even)
  | @reference text inner later first last body closed declared unfolded behind ihInner ih =>
      constructor
      · intro even
        have inside : Settled inner := ihInner.1 (not_escaped_zero _)
        have rest : Settled later := ih.1 (not_escaped_succ closed.closes.1 (by decide))
        have group : Settled (['('] ++ (inner ++ [')'])) :=
          (settled_singleton (by decide)).append (complete_singleton (by decide))
            (inside.concat (by decide))
        have complete : Complete ('(' :: inner ++ [')']) := complete_concat (by decide)
        exact group.append complete rest
      · exact fun odd => absurd odd closed.opens.2

theorem settled (unfolds : Unfolds table text 0 out) : Settled out :=
  unfolds.settled_behind.1 (not_escaped_zero text)

theorem nil_iff (ends : position = text.length) : Unfolds table text position out ↔ out = [] := by
  constructor
  · intro unfolds
    cases unfolds with
    | done => rfl
    | kept stands => simp [ends] at stands
    | reference closed => exact absurd ends (Nat.ne_of_lt closed.opens.lt_length)
  · rintro rfl
    exact .done ends

theorem cons_iff (stands : text[position]? = some char) (free : ¬ Bare text '\x7b' position) :
    Unfolds table text position out ↔
      ∃ later, Unfolds table text (position + 1) later ∧ out = char :: later := by
  constructor
  · intro unfolds
    cases unfolds with
    | done ends => simp [ends] at stands
    | kept also _ behind =>
        rw [stands] at also
        cases also
        exact ⟨_, behind, rfl⟩
    | reference closed => exact absurd closed.opens free
  · intro steps
    rcases steps with ⟨later, behind, rfl⟩
    exact .kept stands free behind

theorem plain_iff (complete : Complete front) (noBrace : char ≠ '\x7b') (rest : List Char) :
    Unfolds table (front ++ char :: rest) front.length out ↔
      ∃ later, Unfolds table (front ++ char :: rest) (front.length + 1) later ∧
        out = char :: later := by
  apply cons_iff
  · simp
  · rw [bare_length_iff complete]
    exact noBrace

theorem escape_iff (complete : Complete front) (char : Char) (rest : List Char) :
    Unfolds table (front ++ '\\' :: char :: rest) front.length out ↔
      ∃ later, Unfolds table (front ++ '\\' :: char :: rest) (front.length + 2) later ∧
        out = '\\' :: char :: later := by
  have stands : (front ++ '\\' :: char :: rest)[front.length + 1]? = some char := by simp
  have escaped : ¬ Bare (front ++ '\\' :: char :: rest) '\x7b' (front.length + 1) := by
    rw [bare_append complete]
    exact Piece.not_bare_escaped
  rw [plain_iff complete (by decide)]
  constructor
  · intro steps
    rcases steps with ⟨behind, step, rfl⟩
    rcases (cons_iff stands escaped).mp step with ⟨later, unfolds, rfl⟩
    exact ⟨later, unfolds, rfl⟩
  · intro steps
    rcases steps with ⟨later, unfolds, rfl⟩
    exact ⟨char :: later, (cons_iff stands escaped).mpr ⟨later, unfolds, rfl⟩, rfl⟩

theorem reference_iff (closed : Brackets.curly.Matched text position last) :
    Unfolds table text position out ↔
      ∃ body inner later,
        table.get? (String.ofList (text.extract (position + 1) last)) = some body ∧
          Unfolds table body.toList 0 inner ∧ Unfolds table text (last + 1) later ∧
          out = '(' :: inner ++ [')'] ++ later := by
  constructor
  · intro unfolds
    cases unfolds with
    | done ends => exact absurd ends (Nat.ne_of_lt closed.opens.lt_length)
    | kept _ free => exact absurd closed.opens free
    | reference also declared unfolded behind =>
        cases also.unique closed
        exact ⟨_, _, _, declared, unfolded, behind, rfl⟩
  · intro steps
    rcases steps with ⟨body, inner, later, declared, unfolded, behind, rfl⟩
    exact .reference closed declared unfolded behind

theorem not_of_unended (unended : Unended text position) : ¬ Unfolds table text position out := by
  intro unfolds
  cases unfolds with
  | done ends => exact absurd ends (Nat.ne_of_lt unended.opens.lt_length)
  | kept _ free => exact absurd unended.opens free
  | reference closed => exact absurd closed (unended.never _)

theorem of_settled (settled : Settled text) (inside : position ≤ text.length) :
    Unfolds table text position (text.drop position) := by
  induction remaining : text.length - position generalizing position with
  | zero =>
      have ends : position = text.length := by omega
      rw [ends, List.drop_length]
      exact .done rfl
  | succ remaining ih =>
      have within : position < text.length := by omega
      rw [List.drop_eq_getElem_cons within]
      exact .kept (List.getElem?_eq_getElem within) (settled position)
        (ih within (by omega))

end Unfolds

namespace Expands

variable {table : DefinitionTable} {front out : List Char} {pieces : List Piece} {glyph : Glyph}
  {name : String} {position : Nat}

theorem nil_iff : Expands table [] out ↔ out = [] := by
  constructor
  · intro expands
    cases expands
    rfl
  · rintro rfl
    exact .nil

theorem kept_iff : Expands table (.kept glyph :: pieces) out ↔
    ∃ later, Expands table pieces later ∧ out = glyph.chars ++ later := by
  constructor
  · intro expands
    cases expands with
    | kept later => exact ⟨_, later, rfl⟩
  · intro steps
    rcases steps with ⟨later, expands, rfl⟩
    exact .kept expands

theorem reference_iff : Expands table (.reference name :: pieces) out ↔
    ∃ body inner later, table.get? name = some body ∧ Expands table (Piece.ofText body) inner ∧
      Expands table pieces later ∧ out = '(' :: inner ++ [')'] ++ later := by
  constructor
  · intro expands
    cases expands with
    | reference declared expanded later => exact ⟨_, _, _, declared, expanded, later, rfl⟩
  · intro steps
    rcases steps with ⟨body, inner, later, declared, expanded, expands, rfl⟩
    exact .reference declared expanded expands

theorem iff_unfolds_of_le {bound : Nat} (complete : Complete front) (rest : List Char)
    (fits : out.length ≤ bound) :
    Expands table (Piece.ofGlyphs front.length (Glyph.ofChars rest)) out ↔
      Unfolds table (front ++ rest) front.length out := by
  -- The bound on the length carries the induction into the bodies, which are shorter.
  induction bound using Nat.strong_induction_on generalizing front rest out with
  | _ bound ihBody
  induction rest using reference_induction generalizing front out with
  | empty => rw [Glyph.ofChars, Piece.ofGlyphs, nil_iff, Unfolds.nil_iff (by simp)]
  | dangling =>
      rw [Piece.ofGlyphs_dangling, kept_iff, Unfolds.plain_iff complete (by decide)]
      refine exists_congr fun later => and_congr_left fun split => ?_
      rw [nil_iff, Unfolds.nil_iff (by simp)]
  | escape char rest ih =>
      rw [Piece.ofGlyphs_escape, kept_iff, Unfolds.escape_iff complete]
      refine exists_congr fun later => and_congr_left fun split => ?_
      have shorter : later.length ≤ bound := by
        rw [split, List.length_append] at fits
        omega
      have next := ih (complete.append (complete_escape char)) shorter
      rw [List.length_append, List.append_assoc] at next
      exact next
  | plain char rest noEscape noBrace ih =>
      rw [Piece.ofGlyphs_plain _ noEscape noBrace, kept_iff, Unfolds.plain_iff complete noBrace]
      refine exists_congr fun later => and_congr_left fun split => ?_
      have shorter : later.length ≤ bound := by
        rw [split, List.length_append] at fits
        omega
      have next := ih (complete.append (complete_singleton noEscape)) shorter
      rw [List.length_append, List.append_assoc] at next
      exact next
  | unended rest never =>
      rw [Piece.ofGlyphs_unended _ never]
      constructor
      · intro expands
        cases expands
      · intro unfolds
        exact absurd unfolds (Unfolds.not_of_unended (unended_length complete never))
  | reference name rest balanced ih =>
      rw [Piece.ofGlyphs_reference _ balanced, reference_iff,
        Unfolds.reference_iff (matched_reference complete balanced rest), Piece.extract_inside]
      refine exists_congr fun body => exists_congr fun inner => exists_congr fun later =>
        and_congr_right fun declared => ?_
      rw [← and_assoc, ← and_assoc]
      refine and_congr_left fun split => and_congr ?_ ?_
      all_goals rw [split, List.length_append, List.length_append, List.length_cons] at fits
      · have shorter : inner.length < bound := by omega
        exact ihBody inner.length shorter complete_nil body.toList (Nat.le_refl _)
      · have shorter : later.length ≤ bound := by omega
        have next := ih (complete.append (complete_reference balanced)) shorter
        have place : front.length + name.length + 2 = front.length + 1 + name.length + 1 := by
          omega
        rw [length_reference, append_reference] at next
        rw [place]
        exact next

theorem iff_unfolds {text : String} :
    Expands table (Piece.ofText text) out ↔ Unfolds table text.toList 0 out :=
  iff_unfolds_of_le complete_nil text.toList (Nat.le_refl _)

theorem congr {other : DefinitionTable} (same : ∀ name, other.get? name = table.get? name)
    (expands : Expands table pieces out) : Expands other pieces out := by
  induction expands with
  | nil => exact .nil
  | kept later ih => exact .kept ih
  | reference declared expanded later ihBody ih =>
      exact .reference ((same _).trans declared) ihBody ih

end Expands

namespace DefinitionTable

variable {table resolved other : DefinitionTable} {name text expanded : String}

theorem Stands.congr (stands : table.Stands name expanded)
    (same : ∀ name, other.get? name = table.get? name) : other.Stands name expanded := by
  rcases stands with ⟨body, found, expands⟩
  exact ⟨body, (same name).trans found, expands.congr same⟩

theorem stands_congr (same : ∀ name, other.get? name = table.get? name) :
    other.Stands name expanded ↔ table.Stands name expanded := by
  constructor
  · intro stands
    exact stands.congr fun name => (same name).symm
  · intro stands
    exact stands.congr same

theorem map_fst_of_forall₂ {sources entries : List (String × String)}
    {related : String × String → String × String → Prop}
    (each : List.Forall₂ (fun source entry => entry.1 = source.1 ∧ related source entry)
      sources entries) : entries.map Prod.fst = sources.map Prod.fst := by
  induction each with
  | nil => rfl
  | cons first later ih => rw [List.map_cons, List.map_cons, first.1, ih]

theorem names_of_resolve (resolves : table.resolve = .ok resolved) :
    resolved.names = table.names.eraseDups := by
  rcases resolve_eq_ok resolves with ⟨entries, rfl, each⟩
  rw [names_ofList, map_fst_of_forall₂ each]
  rfl

theorem names_of_resolve_of_nodup (resolves : table.resolve = .ok resolved)
    (distinct : table.names.Nodup) : resolved.names = table.names := by
  rcases resolve_eq_ok resolves with ⟨entries, rfl, each⟩
  have same := map_fst_of_forall₂ each
  rw [ofList_of_nodup (same ▸ distinct)]
  exact same

theorem nodup_names_of_resolve (resolves : table.resolve = .ok resolved) :
    resolved.names.Nodup := by
  rcases resolve_eq_ok resolves with ⟨entries, rfl, -⟩
  exact nodup_names_ofList entries

theorem get?_resolve_iff (resolves : table.resolve = .ok resolved) :
    resolved.get? name = some expanded ↔ table.Stands name expanded := by
  constructor
  · exact agrees_of_resolve resolves name expanded
  · intro stands
    have declared : name ∈ resolved.names := by
      rcases stands with ⟨body, found, -⟩
      rcases resolve_eq_ok resolves with ⟨entries, rfl, each⟩
      rw [mem_names_ofList, map_fst_of_forall₂ each]
      exact mem_names_of_get? found
    rcases mem_names_iff.mp declared with ⟨pattern, bound⟩
    rw [bound, (agrees_of_resolve resolves name pattern bound).unique stands]

theorem mapM_expand_of_expands {pieces : List Piece} {out : List Char}
    (resolves : table.resolve = .ok resolved) (raw : String) (expands : Expands table pieces out) :
    ∃ parts, pieces.mapM (Piece.expand resolved.body raw) = .ok parts ∧ parts.flatten = out := by
  induction expands with
  | nil => exact ⟨[], rfl, rfl⟩
  | @kept glyph pieces text later ih =>
      rcases ih with ⟨parts, mapped, rfl⟩
      refine ⟨glyph.chars :: parts, ?_, List.flatten_cons⟩
      rw [List.mapM_cons, mapped]
      rfl
  | @reference name body pieces inner text declared full later _ ih =>
      rcases ih with ⟨parts, mapped, rfl⟩
      have stands : table.Stands name (String.ofList inner) := by
        refine ⟨body, declared, ?_⟩
        rw [String.toList_ofList]
        exact full
      have bound : resolved.body name = .ok (String.ofList inner) := by
        rw [DefinitionTable.body, (get?_resolve_iff resolves).mpr stands]
      refine ⟨('(' :: inner ++ [')']) :: parts, ?_, List.flatten_cons⟩
      rw [List.mapM_cons, mapped, Piece.expand, bound]
      simp [bind, Except.bind, pure, Except.pure]

theorem substitute_eq_ok_iff (resolves : table.resolve = .ok resolved) :
    resolved.substitute text = .ok expanded ↔ Unfolds table text.toList 0 expanded.toList := by
  rw [← Expands.iff_unfolds]
  constructor
  · exact expands_of_substitute resolves
  · intro expands
    rcases mapM_expand_of_expands resolves text expands with ⟨parts, mapped, same⟩
    rw [substitute, expandReferences, mapped]
    show Except.ok (String.ofList parts.flatten) = _
    rw [same, String.ofList_toList]

theorem settled_of_substitute (resolves : table.resolve = .ok resolved)
    (done : resolved.substitute text = .ok expanded) : Settled expanded.toList :=
  ((substitute_eq_ok_iff resolves).mp done).settled

theorem substitute_of_settled (resolves : table.resolve = .ok resolved)
    (settled : Settled text.toList) : resolved.substitute text = .ok text :=
  (substitute_eq_ok_iff resolves).mpr (.of_settled settled (Nat.zero_le _))

theorem settled_of_resolve (resolves : table.resolve = .ok resolved) :
    ∀ entry ∈ resolved.entries, Settled entry.2.toList := by
  intro entry member
  have bound := get?_of_mem (nodup_names_of_resolve resolves) member
  rcases agrees_of_resolve resolves _ _ bound with ⟨body, -, expands⟩
  exact (Expands.iff_unfolds.mp expands).settled

theorem stands_of_settled (found : table.get? name = some text) (settled : Settled text.toList) :
    table.Stands name text :=
  ⟨text, found, Expands.iff_unfolds.mpr (.of_settled settled (Nat.zero_le _))⟩

theorem resolve_of_settled (distinct : table.names.Nodup)
    (settled : ∀ entry ∈ table.entries, Settled entry.2.toList) : table.resolve = .ok table := by
  have stands : ∀ entry ∈ table.entries, table.Stands entry.1 entry.2 := fun entry member =>
    stands_of_settled (get?_of_mem distinct member) (settled entry member)
  have resolvable : table.Resolvable := by
    apply resolvable_of_stands
    intro name member
    rcases List.mem_map.mp member with ⟨entry, listed, rfl⟩
    exact ⟨entry.2, stands entry listed⟩
  rcases exists_resolve_iff.mpr resolvable with ⟨again, resolves⟩
  rcases resolve_eq_ok resolves with ⟨entries, rfl, each⟩
  have same : table.entries = entries := by
    rw [← List.forall₂_eq_eq_eq]
    refine ((List.forall₂_and_left _ _).mpr ⟨stands, each⟩).imp ?_
    intro source entry both
    rcases both with ⟨sourceStands, name, entryStands⟩
    exact Prod.ext name.symm (sourceStands.unique entryStands)
  rw [resolves, ← same, ofList_of_nodup distinct]

theorem exists_resolve_of_same (same : ∀ name, other.get? name = table.get? name)
    (resolves : table.resolve = .ok resolved) :
    ∃ otherResolved, other.resolve = .ok otherResolved ∧
      ∀ name, otherResolved.get? name = resolved.get? name := by
  have resolvable : other.Resolvable := by
    rw [resolvable_congr same]
    exact exists_resolve_iff.mp ⟨resolved, resolves⟩
  rcases exists_resolve_iff.mpr resolvable with ⟨otherResolved, otherResolves⟩
  refine ⟨otherResolved, otherResolves, ?_⟩
  intro name
  apply Option.ext
  intro expanded
  rw [get?_resolve_iff otherResolves, get?_resolve_iff resolves, stands_congr same]

/--
A resolved table has the names of the table, each at its first place, expands each text as it
unfolds by the declared bodies, and leaves nothing to resolve or to expand. Its bodies are those of
every order of declaration.
-/
theorem substitute_unfolds (resolves : table.resolve = .ok resolved) :
    resolved.names = table.names.eraseDups ∧
      (table.names.Nodup → resolved.names = table.names) ∧
      (∀ name expanded, resolved.get? name = some expanded ↔
        ∃ body, table.get? name = some body ∧ Unfolds table body.toList 0 expanded.toList) ∧
      (∀ text expanded, resolved.substitute text = .ok expanded ↔
        Unfolds table text.toList 0 expanded.toList) ∧
      (∀ text expanded, resolved.substitute text = .ok expanded →
        Settled expanded.toList ∧ resolved.substitute expanded = .ok expanded) ∧
      (∀ entry ∈ resolved.entries, Settled entry.2.toList) ∧
      resolved.resolve = .ok resolved ∧
      ∀ other : DefinitionTable, (∀ name, other.get? name = table.get? name) →
        ∃ otherResolved, other.resolve = .ok otherResolved ∧
          ∀ name, otherResolved.get? name = resolved.get? name := by
  refine ⟨names_of_resolve resolves, names_of_resolve_of_nodup resolves, ?_,
    fun text expanded => substitute_eq_ok_iff resolves, ?_, settled_of_resolve resolves,
    resolve_of_settled (nodup_names_of_resolve resolves) (settled_of_resolve resolves),
    fun other same => exists_resolve_of_same same resolves⟩
  · intro name expanded
    rw [get?_resolve_iff resolves]
    simp only [Stands, Expands.iff_unfolds]
  · intro text expanded done
    have settled := settled_of_substitute resolves done
    exact ⟨settled, substitute_of_settled resolves settled⟩

def leaves : DefinitionTable := ofList [("Pair", "\x7bLeaf\x7d\x7bLeaf\x7d"), ("Leaf", "a\\")]

theorem substitute_unfolds_leaves :
    leaves.resolve = .ok ⟨[("Pair", "(a\\)(a\\)"), ("Leaf", "a\\")]⟩ ∧
      DefinitionTable.resolve ⟨[("Pair", "(a\\)(a\\)"), ("Leaf", "a\\")]⟩ =
        .ok ⟨[("Pair", "(a\\)(a\\)"), ("Leaf", "a\\")]⟩ ∧
      Unfolds leaves "\x7bPair\x7d\\\x7b".toList 0 "((a\\)(a\\))\\\x7b".toList := by
  have resolves : leaves.resolve = .ok ⟨[("Pair", "(a\\)(a\\)"), ("Leaf", "a\\")]⟩ := by cbv
  have substituted : substitute ⟨[("Pair", "(a\\)(a\\)"), ("Leaf", "a\\")]⟩ "\x7bPair\x7d\\\x7b" =
      .ok "((a\\)(a\\))\\\x7b" := by cbv
  rcases substitute_unfolds resolves with ⟨-, -, -, unfolds, -, -, again, -⟩
  exact ⟨resolves, again, (unfolds _ _).mp substituted⟩

/-- A table that no list of declarations gives, as it may be read from a stored bundle. -/
def heldTwice : DefinitionTable := ⟨[("a", "x"), ("a", "y")]⟩

/-- The first of the two bodies is resolved, and the name is held once then. -/
theorem not_resolve_keeps_names : ¬ ∀ table resolved : DefinitionTable,
    table.resolve = .ok resolved → resolved.names = table.names := by
  intro keeps
  have resolves : heldTwice.resolve = .ok ⟨[("a", "x")]⟩ := by cbv
  have same : ["a"] = ["a", "a"] := keeps heldTwice ⟨[("a", "x")]⟩ resolves
  exact absurd same (by decide)

end DefinitionTable

end MaximalMunch
