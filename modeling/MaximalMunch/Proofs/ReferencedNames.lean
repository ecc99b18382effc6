import MaximalMunch.Proofs.FullExpansion
import MaximalMunch.Proofs.SpecificationFormat

/-!
References to declared names. A declaration takes its name up to the first closing brace, a
reference up to the brace that closes it. Both mean the same name if it opens no brace and has no
escape that goes on behind it. Otherwise nothing closes the reference.
-/

namespace MaximalMunch

/-- The name put in braces opens no inner pair and does not escape the closing brace. -/
structure Referable (name : List Char) : Prop where
  settled : Settled name
  complete : Complete name

section Names

variable {name : List Char}

theorem referable_iff_balanced (free : '\x7d' ∉ name) :
    Referable name ↔ Brackets.curly.Balanced name := by
  constructor
  · intro referable
    cases Brackets.curly.shape name with
    | balanced whole => exact whole
    | closing before rest => exact absurd (by simp [Brackets.curly]) free
    | opening before never =>
        exact absurd ((bare_length_iff before.complete).mpr rfl) (referable.settled _)
    | dangling before =>
        have complete := (complete_append_iff before.complete).mp referable.complete
        cases complete
  · intro balanced
    refine ⟨?_, balanced.complete⟩
    intro place opens
    -- An opening brace would have its partner in the name.
    rcases balanced.paired place (.inl opens) with ⟨other, matched | matched⟩
    · exact free (List.mem_of_getElem? matched.closes.1)
    · have same := matched.closes.1.symm.trans opens.1
      cases same

theorem eq_of_split_at_last {mark : Char} {front inside after : List Char} (free : mark ∉ front)
    (split : front ++ [mark] = inside ++ mark :: after) : inside = front := by
  have first : splitAtFirst mark (front ++ [mark]) = some (front, []) :=
    splitAtFirst_eq_some_iff.mpr ⟨rfl, free⟩
  have unmarked : mark ∉ inside := by
    intro member
    have count := congrArg (List.count mark) split
    simp only [List.count_append, List.count_cons_self, List.count_eq_zero_of_not_mem free,
      List.count_nil] at count
    have positive := List.count_pos_iff.mpr member
    omega
  rw [split, splitAtFirst_eq_some_iff.mpr ⟨rfl, unmarked⟩] at first
  exact congrArg Prod.fst (Option.some.inj first)

theorem unclosed_of_not_referable (free : '\x7d' ∉ name) (unfit : ¬ Referable name) :
    Brackets.curly.Unclosed (name ++ ['\x7d']) := by
  -- The only brace that could close the reference is the one put behind the name.
  intro inside after split balanced
  have same : inside = name := eq_of_split_at_last free split
  rw [same] at balanced
  exact unfit ((referable_iff_balanced free).mpr balanced)

end Names

namespace Piece

theorem ofGlyphs_append {front : List Char} (complete : Complete front) {position : Nat}
    (closed : ∀ place, .unclosed place ∉ ofGlyphs position (Glyph.ofChars front))
    (rest : List Char) : ofGlyphs position (Glyph.ofChars (front ++ rest)) =
      ofGlyphs position (Glyph.ofChars front) ++
        ofGlyphs (position + front.length) (Glyph.ofChars rest) := by
  induction front using reference_induction generalizing position with
  | empty => simp [Glyph.ofChars, ofGlyphs]
  | dangling => cases complete
  | escape char later ih =>
      have behind := (complete_append_iff (complete_escape char)).mp complete
      simp only [ofGlyphs_escape, List.mem_cons, not_or] at closed
      have next := ih behind fun place => (closed place).2
      rw [List.cons_append, List.cons_append, ofGlyphs_escape, ofGlyphs_escape, next,
        List.cons_append, List.length_cons, List.length_cons, Nat.add_assoc, Nat.add_comm 2]
  | plain char later noEscape noBrace ih =>
      have behind := (complete_append_iff (complete_singleton noEscape)).mp complete
      simp only [ofGlyphs_plain _ noEscape noBrace, List.mem_cons, not_or] at closed
      have next := ih behind fun place => (closed place).2
      rw [List.cons_append, ofGlyphs_plain _ noEscape noBrace,
        ofGlyphs_plain _ noEscape noBrace, next, List.cons_append, List.length_cons,
        Nat.add_assoc, Nat.add_comm 1]
  | unended later never =>
      rw [ofGlyphs_unended _ never] at closed
      exact absurd List.mem_cons_self (closed position)
  | reference name later balanced ih =>
      have shape : '\x7b' :: (name ++ '\x7d' :: later) = '\x7b' :: (name ++ ['\x7d']) ++ later := by
        simp
      rw [shape] at complete
      have behind := (complete_append_iff (complete_reference balanced)).mp complete
      simp only [ofGlyphs_reference _ balanced, List.mem_cons, not_or] at closed
      have next := ih behind fun place => (closed place).2
      have place : position + ('\x7b' :: (name ++ '\x7d' :: later)).length =
          position + name.length + 2 + later.length := by
        rw [List.length_cons, List.length_append, List.length_cons]
        omega
      rw [place, List.cons_append, List.append_assoc, List.cons_append,
        ofGlyphs_reference _ balanced, ofGlyphs_reference _ balanced, next, List.cons_append]

variable {body : String → Except PatternError String} {raw : String} {pieces : List Piece}
  {parts : List (List Char)}

theorem closed_of_mapM_expand (mapped : pieces.mapM (expand body raw) = .ok parts) (place : Nat) :
    .unclosed place ∉ pieces := by
  intro member
  rcases exists_of_forall₂_left (forall₂_of_mapM mapped) member with ⟨part, -, expands⟩
  cases expands

theorem mapM_expand_congr (closed : ∀ place, .unclosed place ∉ pieces) (raw other : String) :
    pieces.mapM (expand body raw) = pieces.mapM (expand body other) := by
  -- Only an unclosed reference looks at the text it was cut from.
  induction pieces with
  | nil => rfl
  | cons piece pieces ih =>
      simp only [List.mem_cons, not_or] at closed
      have first : expand body raw piece = expand body other piece := by
        cases piece with
        | kept glyph => rfl
        | reference name => rfl
        | unclosed place => exact absurd rfl (closed place).1
      rw [List.mapM_cons, List.mapM_cons, first, ih fun place => (closed place).2]

end Piece

namespace DefinitionTable

variable {table : DefinitionTable} {text image name body : String}

theorem substitute_append (complete : Complete text.toList)
    (done : table.substitute text = .ok image) (rest : String) :
    table.substitute (text ++ rest) =
      ((Piece.ofGlyphs text.length (Glyph.ofChars rest.toList)).mapM
        (Piece.expand table.body (text ++ rest))).map
          fun parts => image ++ String.ofList parts.flatten := by
  rcases bind_eq_ok_iff.mp done with ⟨parts, mapped, whole⟩
  cases whole
  have closed := Piece.closed_of_mapM_expand mapped
  have cut : Piece.ofText (text ++ rest) =
      Piece.ofText text ++ Piece.ofGlyphs text.length (Glyph.ofChars rest.toList) := by
    have pieces := Piece.ofGlyphs_append complete closed rest.toList
    rw [Nat.zero_add, String.length_toList] at pieces
    rw [Piece.ofText, String.toList_append]
    exact pieces
  rw [Piece.mapM_expand_congr closed text (text ++ rest)] at mapped
  rw [substitute, expandReferences, cut, List.mapM_append, mapped]
  cases (Piece.ofGlyphs text.length (Glyph.ofChars rest.toList)).mapM
    (Piece.expand table.body (text ++ rest)) with
  | error fault => rfl
  | ok behind =>
      show Except.ok (String.ofList (parts ++ behind).flatten) = _
      rw [List.flatten_append, String.ofList_append]
      rfl

def reference (name : String) : String := "\x7b" ++ name ++ "\x7d"

@[simp]
theorem toList_reference (name : String) :
    (reference name).toList = '\x7b' :: (name.toList ++ ['\x7d']) := by
  simp [reference]

theorem substitute_reference (complete : Complete text.toList)
    (done : table.substitute text = .ok image) (bound : table.get? name = some body)
    (balanced : Brackets.curly.Balanced name.toList) :
    table.substitute (text ++ reference name) = .ok (image ++ "(" ++ body ++ ")") := by
  have known : table.body name = .ok body := by rw [DefinitionTable.body, bound]
  have pieces (position : Nat) : Piece.ofGlyphs position (Glyph.ofChars (reference name).toList) =
      [.reference name] := by
    rw [toList_reference, Piece.ofGlyphs_reference position balanced, String.ofList_toList,
      Glyph.ofChars, Piece.ofGlyphs]
  have parts : [Piece.reference name].mapM (Piece.expand table.body (text ++ reference name)) =
      .ok ['(' :: body.toList ++ [')']] := by
    rw [List.mapM_cons, Piece.expand, known]
    rfl
  rw [substitute_append complete done, pieces, parts]
  apply congrArg Except.ok
  apply String.toList_inj.mp
  simp

theorem substitute_unclosed (complete : Complete text.toList)
    (done : table.substitute text = .ok image)
    (never : Brackets.curly.Unclosed (name.toList ++ ['\x7d'])) :
    table.substitute (text ++ reference name) =
      .error (.malformed (text ++ reference name) text.length .unclosedReference) := by
  rw [substitute_append complete done, toList_reference, Piece.ofGlyphs_unended _ never]
  rfl

end DefinitionTable

namespace Specification

variable {source : String} {specification : Specification} {resolved : DefinitionTable}
  {name : String}

theorem Written.not_mem_name (written : Written source specification)
    (declared : name ∈ specification.definitions.names) : '\x7d' ∉ name.toList := by
  cases written with
  | written falls layout declarations holds statesWritten nonempty unitsWritten rulesWritten =>
      rw [holds.names, List.mem_eraseDups, List.map_map] at declared
      rcases List.mem_map.mp declared with ⟨declaration, listed, rfl⟩
      rcases exists_of_forall₂_right declarations listed with ⟨line, -, writes⟩
      cases writes with
      | @definition chars number pattern named plain =>
          rw [Function.comp_apply, String.toList_ofList]
          intro member
          exact (plain _ member).1 rfl

/--
Behind a text that is expanded, the reference to a declared name is replaced by its body, if it can
be closed. Otherwise expanding stops at its opening brace.
-/
theorem substitute_declared (read : ofText source = .ok specification)
    (resolves : specification.definitions.resolve = .ok resolved)
    (declared : name ∈ specification.definitions.names) :
    ∃ body, resolved.get? name = some body ∧
      ∀ text image, Complete text.toList → resolved.substitute text = .ok image →
        (Referable name.toList → resolved.substitute (text ++ DefinitionTable.reference name) =
          .ok (image ++ "(" ++ body ++ ")")) ∧
        (¬ Referable name.toList → resolved.substitute (text ++ DefinitionTable.reference name) =
          .error (.malformed (text ++ DefinitionTable.reference name) text.length
            .unclosedReference)) := by
  have free := (written_of_ofText read).not_mem_name declared
  rcases DefinitionTable.stands_of_resolve resolves name declared with ⟨body, stands⟩
  have bound := (DefinitionTable.get?_resolve_iff resolves).mpr stands
  refine ⟨body, bound, ?_⟩
  intro text image complete done
  constructor
  · intro referable
    have balanced := (referable_iff_balanced free).mp referable
    exact DefinitionTable.substitute_reference complete done bound balanced
  · intro unfit
    have never := unclosed_of_not_referable free unfit
    exact DefinitionTable.substitute_unclosed complete done never

def bracedNames : DefinitionTable := ⟨[("a\\\x7bb", "x"), ("a\x7bb", "y")]⟩

theorem substitute_declared_braces :
    ofText "\x7ba\\\x7bb\x7d x\n\x7ba\x7bb\x7d y\n%X S\n%L" =
        .ok ⟨bracedNames, [("a\\\x7bb", 1), ("a\x7bb", 2)], ["S"], [], []⟩ ∧
      bracedNames.resolve = .ok bracedNames ∧
      bracedNames.substitute "z\\\\\x7ba\\\x7bb\x7d" = .ok "z\\\\(x)" ∧
      bracedNames.substitute "z\\\\\x7ba\x7bb\x7d" =
        .error (.malformed "z\\\\\x7ba\x7bb\x7d" 3 .unclosedReference) := by
  have read : ofText "\x7ba\\\x7bb\x7d x\n\x7ba\x7bb\x7d y\n%X S\n%L" =
      .ok ⟨bracedNames, [("a\\\x7bb", 1), ("a\x7bb", 2)], ["S"], [], []⟩ := by cbv
  have resolves : bracedNames.resolve = .ok bracedNames := by cbv
  have complete : Complete "z\\\\".toList := rfl
  have plain : bracedNames.substitute "z\\\\" = .ok "z\\\\" := by cbv
  have escapes : "a\\\x7bb" ∈ bracedNames.names := by decide
  have opens : "a\x7bb" ∈ bracedNames.names := by decide
  have referable : Referable "a\\\x7bb".toList :=
    (referable_iff_balanced (by decide)).mpr
      (.plain (by decide) (.escape '\x7b' (.plain (by decide) .empty)))
  have unfit : ¬ Referable "a\x7bb".toList := by
    intro referable
    have brace : Bare (['a'] ++ '\x7b' :: ['b']) '\x7b' ['a'].length :=
      (bare_length_iff (complete_singleton (by decide))).mpr rfl
    exact referable.settled 1 brace
  rcases substitute_declared read resolves escapes with ⟨body, bound, replaced⟩
  rcases substitute_declared read resolves opens with ⟨other, -, refused⟩
  cases bound
  exact ⟨read, resolves, (replaced _ _ complete plain).1 referable,
    (refused _ _ complete plain).2 unfit⟩

/-- A name with an opening brace is declared, but no reference means it. -/
theorem not_substitute_every_declared :
    ¬ ∀ source specification resolved name, ofText source = .ok specification →
      specification.definitions.resolve = .ok resolved →
      name ∈ specification.definitions.names →
      ∀ text image, Complete text.toList → resolved.substitute text = .ok image →
        ∃ body, resolved.get? name = some body ∧
          resolved.substitute (text ++ DefinitionTable.reference name) =
            .ok (image ++ "(" ++ body ++ ")") := by
  intro every
  have read : ofText "\x7ba\x7bb\x7d x\n%X S\n%L" =
      .ok ⟨⟨[("a\x7bb", "x")]⟩, [("a\x7bb", 1)], ["S"], [], []⟩ := by cbv
  have resolves : DefinitionTable.resolve ⟨[("a\x7bb", "x")]⟩ = .ok ⟨[("a\x7bb", "x")]⟩ := by
    cbv
  have declared : "a\x7bb" ∈ DefinitionTable.names ⟨[("a\x7bb", "x")]⟩ := by decide
  have nothing : DefinitionTable.substitute ⟨[("a\x7bb", "x")]⟩ "" = .ok "" := by cbv
  have refused : DefinitionTable.substitute ⟨[("a\x7bb", "x")]⟩
      ("" ++ DefinitionTable.reference "a\x7bb") =
        .error (.malformed "\x7ba\x7bb\x7d" 0 .unclosedReference) := by cbv
  rcases every _ _ _ _ read resolves declared "" "" complete_nil nothing with ⟨body, -, replaced⟩
  rw [refused] at replaced
  cases replaced

end Specification

end MaximalMunch
