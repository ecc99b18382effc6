import MaximalMunch.Proofs.DefinitionResolution
import MaximalMunch.Proofs.RuleLayout
import MaximalMunch.Proofs.SpecificationFormat

/-!
The line on which a failure to resolve the definitions is reported. One definition is held to
blame, found by its name or by its pattern, and the line is the first that declares its name. This
is where the fault is if the name is declared once, and an undeclared name in braces is a
reference.
-/

namespace MaximalMunch

namespace DefinitionTable

/-- The name of the first definition whose pattern is such a text. -/
def FirstWith (table : DefinitionTable) (fits : String → Prop) (name : String) : Prop :=
  ∃ before pattern after, table.entries = before ++ (name, pattern) :: after ∧ fits pattern ∧
    ∀ earlier ∈ before, ¬ fits earlier.2

/-- The definition that an error in resolving the table is reported for. -/
def Suspects (table : DefinitionTable) : PatternError → String → Prop
  | .cyclicDefinition member, name => name = member
  | .undefinedReference missing, name =>
      table.FirstWith (fun pattern => '\x7b' :: missing.toList ++ ['\x7d'] <:+: pattern.toList) name
  | .malformed raw _ _, name => table.FirstWith (fun pattern => pattern = raw) name

/-- The definition holds what an error in resolving the table is about. -/
def AtFault (table : DefinitionTable) : PatternError → String → Prop
  | .cyclicDefinition member, name =>
      name = member ∧ Relation.TransGen table.RefersTo name name
  | .undefinedReference missing, name => table.RefersTo name missing ∧ missing ∉ table.names
  | .malformed raw position _, name => table.get? name = some raw ∧
      Reached raw.toList position ∧ Unended raw.toList position

end DefinitionTable

theorem occursIn_iff {part text : List Char} : occursIn part text = true ↔ part <:+: text := by
  induction text with
  | nil => simp [occursIn]
  | cons char rest ih => simp [occursIn, ih, List.infix_cons_iff]

theorem Mentions.occurs {text : List Char} {name : String} (mentions : Mentions text name) :
    '\x7b' :: name.toList ++ ['\x7d'] <:+: text := by
  rcases mentions with ⟨first, last, -, matched, rfl⟩
  rcases matched.opens.split with ⟨front, rest, rfl, rfl, complete⟩
  rcases (Brackets.matched_length_iff complete).mp matched with ⟨inside, after, rfl, -, rfl⟩
  have name := Piece.extract_inside front inside after
  refine ⟨front, after, ?_⟩
  simp only [Brackets.curly] at name ⊢
  rw [String.toList_ofList, name]
  simp

namespace DefinitionTable

variable {table : DefinitionTable} {fault : PatternError} {name : String}

theorem firstWith_of_nameWhere? {test : String → Bool} {fits : String → Prop}
    (decides : ∀ pattern, test pattern = true ↔ fits pattern)
    (found : table.nameWhere? test = some name) : table.FirstWith fits name := by
  rcases Option.map_eq_some_iff.mp found with ⟨⟨other, pattern⟩, first, rfl⟩
  rcases List.find?_eq_some_iff_append.mp first with ⟨passes, before, after, split, earlier⟩
  refine ⟨before, pattern, after, split, (decides pattern).mp passes, ?_⟩
  intro entry member fits
  have fails := earlier entry member
  rw [(decides entry.2).mpr fits] at fails
  cases fails

theorem exists_firstWith {test : String → Bool} {fits : String → Prop} {pattern : String}
    (decides : ∀ pattern, test pattern = true ↔ fits pattern)
    (bound : table.get? name = some pattern) (passes : fits pattern) :
    ∃ first, table.nameWhere? test = some first ∧ table.FirstWith fits first := by
  obtain ⟨before, after, split, -⟩ := List.lookup_eq_some_iff.mp bound
  have listed : (name, pattern) ∈ table.entries := by simp [split]
  cases found : table.nameWhere? test with
  | none =>
      have fails := List.find?_eq_none.mp (Option.map_eq_none_iff.mp found) _ listed
      exact absurd ((decides pattern).mpr passes) fails
  | some first => exact ⟨first, rfl, firstWith_of_nameWhere? decides found⟩

theorem FirstWith.mem_names {fits : String → Prop} (first : table.FirstWith fits name) :
    name ∈ table.names := by
  rcases first with ⟨before, pattern, after, split, -, -⟩
  simp [names, split]

theorem FirstWith.bound {fits : String → Prop} (first : table.FirstWith fits name)
    (distinct : table.names.Nodup) :
    ∃ pattern, table.get? name = some pattern ∧ fits pattern := by
  rcases first with ⟨before, pattern, after, split, passes, -⟩
  have listed : (name, pattern) ∈ table.entries := by simp [split]
  exact ⟨pattern, get?_of_mem distinct listed, passes⟩

theorem Suspects.atFault (suspects : table.Suspects fault name) (blames : table.Blames fault)
    (distinct : table.names.Nodup) (other : ∀ missing, fault ≠ .undefinedReference missing) :
    table.AtFault fault name := by
  cases fault with
  | cyclicDefinition member =>
      cases suspects
      exact ⟨rfl, blames.2⟩
  | undefinedReference missing => exact absurd rfl (other missing)
  | malformed raw position kind =>
      rcases FirstWith.bound suspects distinct with ⟨pattern, bound, rfl⟩
      exact ⟨bound, blames.2.2⟩

end DefinitionTable

namespace Specification

variable {source : String} {specification : Specification} {fault : PatternError}
  {name suspect : String} {line : Nat}

/-- The line has the last declaration of the name, with the pattern that counts. -/
structure InForce (source : String) (specification : Specification) (name : String)
    (line : Nat) : Prop where
  last : IsGreatest {place | (name, place) ∈ specification.definitionLines} line
  declares : ∃ text ∈ numberedLines source.toList, ∃ pattern,
    WritesDefinition text ⟨name, pattern, line⟩ ∧ specification.definitions.get? name = some pattern

theorem pairwise_numberedLines (text : List Char) :
    (numberedLines text).Pairwise fun earlier later => earlier.number < later.number := by
  have indices : ((lines text).zipIdx.map Prod.snd).Pairwise (· < ·) := by
    rw [List.zipIdx_map_snd]
    exact List.pairwise_lt_range'
  apply List.pairwise_map.mpr
  exact (List.pairwise_map.mp indices).imp Nat.succ_lt_succ

theorem map_line_of_writes {front : List Line} {declarations : List Declaration}
    (written : List.Forall₂ WritesDefinition front declarations) :
    declarations.map Declaration.line = front.map Line.number := by
  induction written with
  | nil => rfl
  | cons writes later ih => rw [List.map_cons, List.map_cons, writes.opens.2, ih]

/-- The declarations of a source, each with the line it stands on. -/
structure DeclaredBy (source : String) (specification : Specification)
    (declarations : List Declaration) : Prop where
  stands : ∀ declaration ∈ declarations,
    ∃ text ∈ numberedLines source.toList, WritesDefinition text declaration
  ascending : declarations.Pairwise fun earlier later => earlier.line < later.line
  definitions : specification.definitions =
    DefinitionTable.ofList (declarations.map fun d => (d.name, d.pattern))
  lines : specification.definitionLines = declarations.map fun d => (d.name, d.line)

theorem Written.exists_declaredBy (written : Written source specification) :
    ∃ declarations, DeclaredBy source specification declarations := by
  cases written with
  | @written texts front statesLine unitsLine blocks declarations states units rules definitions
      falls layout declared holds statesWritten nonempty unitsWritten rulesWritten =>
      have kept : front.Sublist (numberedLines source.toList) := by
        have sublist := List.sublist_append_left front (statesLine :: unitsLine :: blocks.flatten)
        rw [← layout, ← fallsInto_iff.mp falls, ← filter_numberedLines] at sublist
        exact sublist.trans List.filter_sublist
      refine ⟨declarations, ?_, ?_, DefinitionTable.holds_iff.mp holds, rfl⟩
      · intro declaration listed
        rcases exists_of_forall₂_right declared listed with ⟨text, member, writes⟩
        exact ⟨text, kept.subset member, writes⟩
      · have numbers := List.pairwise_map.mpr ((pairwise_numberedLines source.toList).sublist kept)
        rw [← map_line_of_writes declared] at numbers
        exact List.pairwise_map.mp numbers

namespace DeclaredBy

variable {declarations : List Declaration}

theorem exists_line (declares : DeclaredBy source specification declarations)
    (declared : name ∈ specification.definitions.names) :
    ∃ line, specification.lineOf? name = some line := by
  cases found : specification.lineOf? name with
  | some line => exact ⟨line, rfl⟩
  | none =>
      rw [declares.definitions, DefinitionTable.mem_names_ofList, List.map_map] at declared
      rcases List.mem_map.mp declared with ⟨declaration, listed, rfl⟩
      have entry : (declaration.name, declaration.line) ∈ specification.definitionLines := by
        rw [declares.lines]
        exact List.mem_map.mpr ⟨declaration, listed, rfl⟩
      have differs := List.lookup_eq_none_iff.mp found _ entry
      simp at differs

theorem name_unique (declares : DeclaredBy source specification declarations)
    (first : (name, line) ∈ specification.definitionLines)
    (second : (suspect, line) ∈ specification.definitionLines) : name = suspect := by
  have distinct : (declarations.map Declaration.line).Nodup :=
    (List.pairwise_map.mpr declares.ascending).imp Nat.ne_of_lt
  rw [declares.lines] at first second
  rcases List.mem_map.mp first with ⟨one, listed, same⟩
  rcases List.mem_map.mp second with ⟨other, alsoListed, also⟩
  rcases Prod.mk.inj same with ⟨rfl, rfl⟩
  rcases Prod.mk.inj also with ⟨rfl, lines⟩
  rw [List.inj_on_of_nodup_map distinct listed alsoListed lines.symm]

theorem isLeast_of_lineOf? (declares : DeclaredBy source specification declarations)
    (found : specification.lineOf? name = some line) :
    IsLeast {place | (name, place) ∈ specification.definitionLines} line := by
  -- The search for a name stops at its first line.
  obtain ⟨before, after, split, absent⟩ := List.lookup_eq_some_iff.mp found
  have ascending : specification.definitionLines.Pairwise fun first later => first.2 < later.2 := by
    rw [declares.lines]
    exact List.pairwise_map.mpr declares.ascending
  rw [split] at ascending
  refine ⟨by simp [split], ?_⟩
  intro place member
  have listed : (name, place) ∈ before ++ (name, line) :: after := split ▸ member
  rcases List.mem_append.mp listed with early | here
  · have differs := absent _ early
    simp at differs
  · rcases List.mem_cons.mp here with same | later
    · cases same
      exact Nat.le_refl _
    · have behind := (List.pairwise_cons.mp (List.pairwise_append.mp ascending).2.1).1
      exact Nat.le_of_lt (behind _ later)

theorem inForce_of_once (declares : DeclaredBy source specification declarations)
    (declared : name ∈ specification.definitions.names)
    (once : ∀ place, (name, place) ∈ specification.definitionLines → place = line)
    (known : (name, line) ∈ specification.definitionLines) :
    InForce source specification name line := by
  refine ⟨⟨known, fun place member => Nat.le_of_eq (once place member)⟩, ?_⟩
  rcases DefinitionTable.mem_names_iff.mp declared with ⟨pattern, bound⟩
  have entry := bound
  rw [declares.definitions, DefinitionTable.get?_ofList] at entry
  obtain ⟨before, after, split, -⟩ := List.lookup_eq_some_iff.mp entry
  have listed : (name, pattern) ∈ declarations.map fun d => (d.name, d.pattern) := by
    rw [← List.mem_reverse, split]
    simp
  rcases List.mem_map.mp listed with ⟨⟨other, text, place⟩, member, same⟩
  cases same
  have here : place = line := by
    apply once
    rw [declares.lines]
    exact List.mem_map.mpr ⟨_, member, rfl⟩
  rcases declares.stands _ member with ⟨shown, stands, writes⟩
  rw [here] at writes
  exact ⟨shown, stands, text, writes, bound⟩

end DeclaredBy

theorem exists_suspect (blames : specification.definitions.Blames fault) :
    ∃ suspect ∈ specification.definitions.names, specification.definitions.Suspects fault suspect ∧
      specification.faultLine fault = (specification.lineOf? suspect).getD 1 := by
  cases fault with
  | cyclicDefinition member => exact ⟨member, blames.1, rfl, rfl⟩
  | undefinedReference missing =>
      rcases blames.2 with ⟨referrer, body, bound, mentions⟩
      rcases DefinitionTable.exists_firstWith (fun pattern => occursIn_iff) bound mentions.occurs
        with ⟨suspect, found, first⟩
      refine ⟨suspect, first.mem_names, first, ?_⟩
      simp only [faultLine]
      rw [found]
      rfl
  | malformed raw position kind =>
      rcases blames.2.1 with ⟨holder, bound⟩
      have equal (pattern : String) : decide (pattern = raw) = true ↔ pattern = raw :=
        decide_eq_true_iff
      rcases DefinitionTable.exists_firstWith equal bound rfl with ⟨suspect, found, first⟩
      refine ⟨suspect, first.mem_names, first, ?_⟩
      simp only [faultLine]
      rw [found]
      rfl

theorem DeclaredBy.nodup_names {declarations : List Declaration}
    (declares : DeclaredBy source specification declarations) :
    specification.definitions.names.Nodup := by
  rw [declares.definitions]
  exact DefinitionTable.nodup_names_ofList _

/--
A failure to resolve the definitions is reported on the first line that declares the suspect. That
is the line in force of a definition at fault if and only if the suspect is declared once and is at
fault itself. Only for an undeclared name the suspect may be the wrong one.
-/
theorem compile_reports (read : ofText source = .ok specification)
    (unresolved : specification.definitions.resolve = .error fault) :
    ∃ suspect line, specification.definitions.Suspects fault suspect ∧
      IsLeast {place | (suspect, place) ∈ specification.definitionLines} line ∧
      specification.compile = .error (.specification ⟨line, .badPattern fault⟩) ∧
      ((∃ name, InForce source specification name line ∧
          specification.definitions.AtFault fault name) ↔
        (∀ place, (suspect, place) ∈ specification.definitionLines → place = line) ∧
          specification.definitions.AtFault fault suspect) ∧
      ((∀ missing, fault ≠ .undefinedReference missing) →
        specification.definitions.AtFault fault suspect) := by
  rcases (written_of_ofText read).exists_declaredBy with ⟨declarations, declares⟩
  have blames := DefinitionTable.blames_of_resolve unresolved
  rcases exists_suspect blames with ⟨suspect, declared, suspects, reported⟩
  rcases declares.exists_line declared with ⟨line, found⟩
  rw [found, Option.getD_some] at reported
  have least := declares.isLeast_of_lineOf? found
  refine ⟨suspect, line, suspects, least, ?reports, ⟨?right, ?wrong⟩, ?certain⟩
  case reports =>
    rw [compile, layOut_of_unresolved unresolved, reported]
    rfl
  case right =>
    rintro ⟨name, inForce, atFault⟩
    have same : name = suspect := declares.name_unique inForce.last.1 least.1
    rw [same] at inForce atFault
    refine ⟨?_, atFault⟩
    intro place known
    exact Nat.le_antisymm (inForce.last.2 known) (least.2 known)
  case wrong =>
    rintro ⟨once, atFault⟩
    exact ⟨suspect, declares.inForce_of_once declared once least.1, atFault⟩
  case certain => exact suspects.atFault blames declares.nodup_names

def undefinedSource : String := "\x7ba\x7d \\\x7bb\x7d\n\n\x7bc\x7d \x7bnope\x7d\n%X S\n%L"

def undefinedSpecification : Specification where
  definitions := ⟨[("a", "\\\x7bb\x7d"), ("c", "\x7bnope\x7d")]⟩
  definitionLines := [("a", 1), ("c", 3)]
  states := ["S"]

theorem compile_reports_nope :
    ofText undefinedSource = .ok undefinedSpecification ∧
      undefinedSpecification.compile =
        .error (.specification ⟨3, .badPattern (.undefinedReference "nope")⟩) ∧
      ∃ name, InForce undefinedSource undefinedSpecification name 3 ∧
        undefinedSpecification.definitions.AtFault (.undefinedReference "nope") name := by
  have read : ofText undefinedSource = .ok undefinedSpecification := by cbv
  have unresolved : undefinedSpecification.definitions.resolve =
      .error (.undefinedReference "nope") := by cbv
  have reported : undefinedSpecification.compile =
      .error (.specification ⟨3, .badPattern (.undefinedReference "nope")⟩) := by cbv
  have refers : undefinedSpecification.definitions.RefersTo "c" "nope" := by
    have pieces : Piece.ofText "\x7bnope\x7d" = [.reference "nope"] := by cbv
    refine ⟨"\x7bnope\x7d", by cbv, Piece.reference_mem_ofText.mp ?_⟩
    rw [pieces]
    exact List.mem_singleton_self _
  rcases compile_reports read unresolved with ⟨suspect, line, -, least, same, right, -⟩
  rw [reported] at same
  cases same
  have name : suspect = "c" := by simpa [undefinedSpecification] using least.1
  subst name
  refine ⟨read, reported, right.mpr ⟨?_, refers, by decide⟩⟩
  intro place known
  simpa [undefinedSpecification] using known

/-- A name that is declared again is reported on its first line, where nothing is wrong. -/
theorem not_compile_reports_in_force :
    ¬ ∀ source specification fault, ofText source = .ok specification →
      specification.definitions.resolve = .error fault →
      ∃ line name, specification.compile = .error (.specification ⟨line, .badPattern fault⟩) ∧
        InForce source specification name line ∧
          specification.definitions.AtFault fault name := by
  intro every
  have read : ofText "\x7ba\x7d x\n\x7ba\x7d \x7bb\x7d\n%X S\n%L" =
      .ok ⟨⟨[("a", "\x7bb\x7d")]⟩, [("a", 1), ("a", 2)], ["S"], [], []⟩ := by cbv
  have unresolved : DefinitionTable.resolve ⟨[("a", "\x7bb\x7d")]⟩ =
      .error (.undefinedReference "b") := by cbv
  have reported : compile ⟨⟨[("a", "\x7bb\x7d")]⟩, [("a", 1), ("a", 2)], ["S"], [], []⟩ =
      .error (.specification ⟨1, .badPattern (.undefinedReference "b")⟩) := by cbv
  rcases every _ _ _ read unresolved with ⟨line, name, same, inForce, -⟩
  rw [reported] at same
  cases same
  have first : name = "a" := by simpa using inForce.last.1
  subst first
  have later : 2 ≤ 1 := inForce.last.2 (by simp)
  exact absurd later (by decide)

end Specification

end MaximalMunch
