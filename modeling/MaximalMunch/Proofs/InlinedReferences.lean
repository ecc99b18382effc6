import MaximalMunch.Proofs.FullExpansion

/-!
Putting the body of a definition in parentheses where a reference stands does not change the
expansion of a text, wherever the text is: in a pattern or in another definition.
-/

namespace MaximalMunch

/-- Some references of the text are replaced by their bodies in parentheses. -/
inductive Inlines (table : DefinitionTable) : List Char → List Char → Prop
  | rest (text : List Char) : Inlines table text text
  | char {char : Char} {text other : List Char} (noEscape : char ≠ '\\') (noBrace : char ≠ '\x7b')
      (later : Inlines table text other) : Inlines table (char :: text) (char :: other)
  | escape (char : Char) {text other : List Char} (later : Inlines table text other) :
      Inlines table ('\\' :: char :: text) ('\\' :: char :: other)
  | kept {name text other : List Char} (balanced : Brackets.curly.Balanced name)
      (later : Inlines table text other) :
      Inlines table ('\x7b' :: (name ++ '\x7d' :: text)) ('\x7b' :: (name ++ '\x7d' :: other))
  | inlined {name text other : List Char} {body : String}
      (balanced : Brackets.curly.Balanced name)
      (declared : table.get? (String.ofList name) = some body) (later : Inlines table text other) :
      Inlines table ('\x7b' :: (name ++ '\x7d' :: text))
        ('(' :: (body.toList ++ ')' :: other))

/-- The other table has all definitions of this one, where references may be inlined. -/
def DefinitionTable.Includes (table other : DefinitionTable) : Prop :=
  ∀ name body, table.get? name = some body →
    ∃ changed, other.get? name = some changed ∧ Inlines table body.toList changed.toList

/-- The full expansion of a text, wherever the text stands. -/
def ExpandsTo (table : DefinitionTable) (text out : List Char) : Prop :=
  Expands table (Piece.ofGlyphs 0 (Glyph.ofChars text)) out

namespace ExpandsTo

variable {table : DefinitionTable} {char : Char} {name text rest out later inner : List Char}

theorem moved {first second : Nat}
    (expands : Expands table (Piece.ofGlyphs first (Glyph.ofChars text)) out) :
    Expands table (Piece.ofGlyphs second (Glyph.ofChars text)) out := by
  induction text using reference_induction generalizing first second out with
  | empty =>
      rw [Glyph.ofChars, Piece.ofGlyphs] at expands ⊢
      exact expands
  | dangling =>
      rw [Piece.ofGlyphs_dangling] at expands ⊢
      exact expands
  | escape char rest ih =>
      rw [Piece.ofGlyphs_escape, Expands.kept_iff] at expands ⊢
      rcases expands with ⟨later, expands, rfl⟩
      exact ⟨later, ih expands, rfl⟩
  | plain char rest noEscape noBrace ih =>
      rw [Piece.ofGlyphs_plain _ noEscape noBrace, Expands.kept_iff] at expands ⊢
      rcases expands with ⟨later, expands, rfl⟩
      exact ⟨later, ih expands, rfl⟩
  | unended rest never =>
      rw [Piece.ofGlyphs_unended _ never] at expands
      cases expands
  | reference name rest balanced ih =>
      rw [Piece.ofGlyphs_reference _ balanced, Expands.reference_iff] at expands ⊢
      rcases expands with ⟨body, inner, later, declared, expanded, expands, rfl⟩
      exact ⟨body, inner, later, declared, expanded, ih expands, rfl⟩

theorem iff_moved (position : Nat) : ExpandsTo table text out ↔
    Expands table (Piece.ofGlyphs position (Glyph.ofChars text)) out :=
  ⟨moved, moved⟩

theorem nil_iff : ExpandsTo table [] out ↔ out = [] := by
  rw [ExpandsTo, Glyph.ofChars, Piece.ofGlyphs]
  exact Expands.nil_iff

theorem dangling_iff : ExpandsTo table ['\\'] out ↔ out = ['\\'] := by
  rw [ExpandsTo, Piece.ofGlyphs_dangling, Expands.kept_iff]
  constructor
  · rintro ⟨later, expands, rfl⟩
    rw [Expands.nil_iff.mp expands]
    rfl
  · rintro rfl
    exact ⟨[], .nil, rfl⟩

theorem char_iff (noEscape : char ≠ '\\') (noBrace : char ≠ '\x7b') :
    ExpandsTo table (char :: rest) out ↔
      ∃ later, ExpandsTo table rest later ∧ out = char :: later := by
  rw [ExpandsTo, Piece.ofGlyphs_plain _ noEscape noBrace, Expands.kept_iff]
  exact exists_congr fun later => and_congr_left fun _ => (iff_moved _).symm

theorem escape_iff : ExpandsTo table ('\\' :: char :: rest) out ↔
    ∃ later, ExpandsTo table rest later ∧ out = '\\' :: char :: later := by
  rw [ExpandsTo, Piece.ofGlyphs_escape, Expands.kept_iff]
  exact exists_congr fun later => and_congr_left fun _ => (iff_moved _).symm

theorem not_of_unended (never : Brackets.curly.Unclosed rest) :
    ¬ ExpandsTo table ('\x7b' :: rest) out := by
  rw [ExpandsTo, Piece.ofGlyphs_unended _ never]
  intro expands
  cases expands

theorem reference_iff (balanced : Brackets.curly.Balanced name) :
    ExpandsTo table ('\x7b' :: (name ++ '\x7d' :: rest)) out ↔
      ∃ body inner later, table.get? (String.ofList name) = some body ∧
        ExpandsTo table body.toList inner ∧ ExpandsTo table rest later ∧
          out = '(' :: (inner ++ ')' :: later) := by
  rw [ExpandsTo, Piece.ofGlyphs_reference _ balanced, Expands.reference_iff]
  refine exists_congr fun body => exists_congr fun inner => exists_congr fun later => ?_
  have elsewhere : ExpandsTo table rest later ↔
      Expands table (Piece.ofGlyphs (0 + name.length + 2) (Glyph.ofChars rest)) later := iff_moved _
  rw [elsewhere]
  simp [ExpandsTo, Piece.ofText]

theorem closed (front : ExpandsTo table text inner) (behind : ExpandsTo table rest later) :
    ExpandsTo table (text ++ ')' :: rest) (inner ++ ')' :: later) := by
  induction text using reference_induction generalizing inner with
  | empty =>
      rw [nil_iff.mp front]
      exact (char_iff (by decide) (by decide)).mpr ⟨later, behind, rfl⟩
  | dangling =>
      rw [dangling_iff.mp front]
      exact escape_iff.mpr ⟨later, behind, rfl⟩
  | escape char text ih =>
      rcases escape_iff.mp front with ⟨more, next, rfl⟩
      exact escape_iff.mpr ⟨_, ih next, rfl⟩
  | plain char text noEscape noBrace ih =>
      rcases (char_iff noEscape noBrace).mp front with ⟨more, next, rfl⟩
      exact (char_iff noEscape noBrace).mpr ⟨_, ih next, rfl⟩
  | unended text never => exact absurd front (not_of_unended never)
  | reference name text balanced ih =>
      rcases (reference_iff balanced).mp front with
        ⟨body, inside, more, declared, expanded, next, rfl⟩
      have whole := (reference_iff balanced).mpr
        ⟨body, inside, _, declared, expanded, ih next, rfl⟩
      simpa using whole

end ExpandsTo

variable {table other : DefinitionTable} {text changed out : List Char}

theorem Inlines.expandsTo (inlines : Inlines table text changed)
    (expands : ExpandsTo table text out) : ExpandsTo table changed out := by
  induction inlines generalizing out with
  | rest text => exact expands
  | char noEscape noBrace later ih =>
      rcases (ExpandsTo.char_iff noEscape noBrace).mp expands with ⟨more, next, rfl⟩
      exact (ExpandsTo.char_iff noEscape noBrace).mpr ⟨more, ih next, rfl⟩
  | escape char later ih =>
      rcases ExpandsTo.escape_iff.mp expands with ⟨more, next, rfl⟩
      exact ExpandsTo.escape_iff.mpr ⟨more, ih next, rfl⟩
  | kept balanced later ih =>
      rcases (ExpandsTo.reference_iff balanced).mp expands with
        ⟨body, inner, more, declared, expanded, next, rfl⟩
      exact (ExpandsTo.reference_iff balanced).mpr
        ⟨body, inner, more, declared, expanded, ih next, rfl⟩
  | inlined balanced declared later ih =>
      rcases (ExpandsTo.reference_iff balanced).mp expands with
        ⟨body, inner, more, found, expanded, next, rfl⟩
      cases declared.symm.trans found
      exact (ExpandsTo.char_iff (by decide) (by decide)).mpr
        ⟨_, expanded.closed (ih next), rfl⟩

theorem DefinitionTable.includes_of_subset (kept : table.entries ⊆ other.entries)
    (distinct : other.names.Nodup) : table.Includes other := by
  intro name body declared
  rcases List.lookup_eq_some_iff.mp declared with ⟨before, after, split, -⟩
  have listed : (name, body) ∈ table.entries := by
    rw [split]
    exact List.mem_append_right before List.mem_cons_self
  exact ⟨body, get?_of_mem distinct (kept listed), .rest body.toList⟩

theorem DefinitionTable.Includes.expands (includes : table.Includes other) {pieces : List Piece}
    (expands : Expands table pieces out) : Expands other pieces out := by
  -- The bound on the length carries the induction into the bodies, which are shorter.
  induction length : out.length using Nat.strongRecOn generalizing pieces out with
  | _ bound ih =>
      cases expands with
      | nil => exact .nil
      | @kept glyph pieces text later =>
          have shorter : text.length < bound := by
            rw [← length, List.length_append]
            have wide : 0 < glyph.chars.length := by
              cases glyph <;> exact Nat.succ_pos _
            omega
          exact .kept (ih _ shorter later rfl)
      | @reference name body pieces inner text declared expanded later =>
          rw [List.length_append, List.length_append, List.length_cons] at length
          rcases includes name body declared with ⟨changed, found, inlines⟩
          have inlined : Expands table (Piece.ofText changed) inner := inlines.expandsTo expanded
          have inside : inner.length < bound := by omega
          have behind : text.length < bound := by omega
          exact .reference found (ih _ inside inlined rfl) (ih _ behind later rfl)

end MaximalMunch
