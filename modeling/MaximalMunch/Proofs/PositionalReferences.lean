import MaximalMunch.Proofs.PositionalText
import MaximalMunch.Proofs.References

/-!
References expanded by positions, with every access checked. The expansion is the one that pieces
of the text are put together to, so no access fails.
-/

namespace MaximalMunch

namespace Positional

/-- A place behind another, so that a loop that goes on there comes to its end. -/
def ahead (position next : Nat) : Except Stumble {place : Nat // position < place} :=
  if further : position < next then .ok ⟨next, further⟩ else .error (.endless position)

theorem ahead_eq {position next : Nat} (further : position < next) :
    ahead position next = .ok ⟨next, further⟩ :=
  dif_pos further

section Expand

variable {m : Type → Type} [Monad m] [MonadExcept PatternError m]

/-- Replaces the references from a position on; `raw` is the whole text. -/
def expandFrom (body : String → ExceptT Stumble m String) (raw : String) (text : List Char)
    (position : Nat) (output : List Char) : ExceptT Stumble m (List Char) := do
  if position < text.length then
    let char ← charAt text position
    let escaped ← isEscaped text position
    if char = '\x7b' ∧ escaped = false then
      match ← findClosing .curly text position with
      | none => ExceptT.lift (throw (.malformed raw position .unclosedReference))
      | some close =>
        let name ← slice text (position + 1) close
        let expansion ← body (String.ofList name)
        let next ← ahead position (close + 1)
        expandFrom body raw text next (output ++ '(' :: (expansion.toList ++ [')']))
    else expandFrom body raw text (position + 1) (output ++ [char])
  else return output
termination_by text.length - position
decreasing_by
  · exact Nat.sub_lt_sub_left ‹_› next.2
  · omega

def expand (body : String → ExceptT Stumble m String) (text : String) :
    ExceptT Stumble m String := do
  return String.ofList (← expandFrom body text text.toList 0 [])

end Expand

def substitute (table : DefinitionTable) (text : String) :
    ExceptT Stumble (Except PatternError) String :=
  expand (fun name => ExceptT.lift (table.body name)) text

def resolveName (table : DefinitionTable) (path : List String) (name : String) :
    ExceptT Stumble (StateT DefinitionTable (Except PatternError)) String := do
  match (← get).get? name with
  | some expanded => return expanded
  | none =>
    match found : table.get? name with
    | none => ExceptT.lift (throw (.undefinedReference name))
    | some text =>
      if onPath : name ∈ path then ExceptT.lift (throw (.cyclicDefinition name))
      else
        have := DefinitionTable.unvisited_cons_lt (DefinitionTable.mem_names_of_get? found) onPath
        let expanded ← expand (fun inner => resolveName table (name :: path) inner) text
        modify fun finished => finished.declare name expanded
        return expanded
termination_by table.unvisited path

def resolve (table : DefinitionTable) : ExceptT Stumble (Except PatternError) DefinitionTable := do
  let entries ← ExceptT.mk (StateT.run' (ExceptT.run (table.entries.mapM fun entry => do
    let expanded ← resolveName table [] entry.1
    return (entry.1, expanded))) {})
  return .ofList entries

/-- The checked run does what the plain one does, and none of its accesses fails. -/
def Follows {m : Type → Type} [Monad m] {α : Type} (checked : ExceptT Stumble m α)
    (plain : m α) : Prop :=
  checked.run = Except.ok <$> plain

namespace Follows

variable {m : Type → Type} [Monad m] {α β : Type}

theorem lift (plain : m α) : Follows (ExceptT.lift plain) plain := rfl

variable [LawfulMonad m]

theorem pure (value : α) : Follows (pure value : ExceptT Stumble m α) (Pure.pure value) :=
  (map_pure _ _).symm

theorem bind {checked : ExceptT Stumble m α} {plain : m α} (first : Follows checked plain)
    {left : α → ExceptT Stumble m β} {right : α → m β}
    (next : ∀ value, Follows (left value) (right value)) :
    Follows (checked >>= left) (plain >>= right) := by
  unfold Follows at first next ⊢
  rw [ExceptT.run_bind, first, bind_map_left, map_bind]
  exact bind_congr next

theorem mapM {checked : α → ExceptT Stumble m β} {plain : α → m β}
    (each : ∀ input, Follows (checked input) (plain input)) (inputs : List α) :
    Follows (inputs.mapM checked) (inputs.mapM plain) := by
  induction inputs with
  | nil => exact .pure []
  | cons input inputs ih =>
      rw [List.mapM_cons, List.mapM_cons]
      exact (each input).bind fun _ => ih.bind fun _ => .pure _

theorem run' {σ : Type} {checked : ExceptT Stumble (StateT σ m) α} {plain : StateT σ m α}
    (follows : Follows checked plain) (first : σ) :
    Follows (ExceptT.mk (StateT.run' checked.run first)) (plain.run' first) := by
  unfold Follows at follows ⊢
  show Prod.fst <$> (checked.run).run first = _ <$> (Prod.fst <$> plain.run first)
  rw [follows, StateT.run_map, Functor.map_map, Functor.map_map]

theorem access {checked : Except Stumble α} {value : α} (found : checked = .ok value)
    {left : α → ExceptT Stumble m β} {plain : m β} (next : Follows (left value) plain) :
    Follows (liftM checked >>= left) plain := by
  subst found
  have first : (liftM (Except.ok value : Except Stumble α) : ExceptT Stumble m α).run =
      Pure.pure (.ok value) := rfl
  unfold Follows at next ⊢
  rw [ExceptT.run_bind, first, pure_bind]
  exact next

end Follows

section Expand

variable {m : Type → Type} [Monad m] [MonadExcept PatternError m] [LawfulMonad m]
  {body : String → ExceptT Stumble m String} {plain : String → m String} {raw : String}

theorem mapM_expand_cons (piece : Piece) (pieces : List Piece) (output : List Char) :
    ((piece :: pieces).mapM (Piece.expand plain raw) >>= fun parts =>
        pure (output ++ parts.flatten)) =
      Piece.expand plain raw piece >>= fun part =>
        pieces.mapM (Piece.expand plain raw) >>= fun parts =>
          pure (output ++ part ++ parts.flatten) := by
  simp [List.mapM_cons]

theorem expandFrom_char {text output : List Char} {position : Nat} {char : Char} {escaped : Bool}
    (stands : charAt text position = .ok char) (counted : isEscaped text position = .ok escaped)
    (kept : ¬ (char = '\x7b' ∧ escaped = false)) {next : m (List Char)}
    (later : Follows (expandFrom body raw text (position + 1) (output ++ [char])) next) :
    Follows (expandFrom body raw text position output) next := by
  rw [expandFrom, if_pos (lt_length_of_charAt stands)]
  refine .access stands (.access counted ?_)
  rw [if_neg kept]
  exact later

theorem expandFrom_unended {front rest : List Char} (complete : Complete front)
    (never : Brackets.curly.Unclosed rest) (output : List Char) :
    Follows (expandFrom body raw (front ++ '\x7b' :: rest) front.length output)
      (throw (.malformed raw front.length .unclosedReference)) := by
  have missing : findClosing .curly (front ++ '\x7b' :: rest) front.length = .ok none :=
    findClosing_unclosed complete never
  rw [expandFrom, if_pos (by simp)]
  refine .access (charAt_length front '\x7b' rest) (.access (isEscaped_length complete _) ?_)
  rw [if_pos ⟨rfl, rfl⟩]
  exact .access missing (.lift _)

theorem expandFrom_reference (bodies : ∀ name, Follows (body name) (plain name))
    {front name : List Char} (complete : Complete front)
    (balanced : Brackets.curly.Balanced name) (rest output : List Char)
    {next : String → m (List Char)}
    (later : ∀ expansion, Follows (expandFrom body raw
      (front ++ '\x7b' :: (name ++ '\x7d' :: rest)) (front.length + 1 + name.length + 1)
        (output ++ '(' :: (expansion.toList ++ [')']))) (next expansion)) :
    Follows
      (expandFrom body raw (front ++ '\x7b' :: (name ++ '\x7d' :: rest)) front.length output)
      (plain (String.ofList name) >>= next) := by
  have closed : findClosing .curly (front ++ '\x7b' :: (name ++ '\x7d' :: rest)) front.length =
      .ok (some (front.length + 1 + name.length)) :=
    findClosing_balanced complete balanced rest
  have inside : front.length + 1 + name.length ≤
      (front ++ '\x7b' :: (name ++ '\x7d' :: rest)).length := by
    simp
    omega
  have cut := slice_eq (Nat.le_add_right (front.length + 1) name.length) inside
  rw [Piece.extract_inside] at cut
  have further : front.length < front.length + 1 + name.length + 1 := by omega
  rw [expandFrom, if_pos (by simp)]
  refine .access (charAt_length front '\x7b' _) (.access (isEscaped_length complete _) ?_)
  rw [if_pos ⟨rfl, rfl⟩]
  refine .access closed (.access cut ?_)
  exact (bodies _).bind fun expansion => .access (ahead_eq further) (later expansion)

theorem expandFrom_follows (bodies : ∀ name, Follows (body name) (plain name))
    (stops : ∀ {α β : Type} (fault : PatternError) (next : α → m β),
      (throw fault : m α) >>= next = throw fault)
    {front : List Char} (complete : Complete front) (rest output : List Char) :
    Follows (expandFrom body raw (front ++ rest) front.length output)
      ((Piece.ofGlyphs front.length (Glyph.ofChars rest)).mapM (Piece.expand plain raw) >>=
        fun parts => pure (output ++ parts.flatten)) := by
  induction rest using reference_induction generalizing front output with
  | empty =>
      rw [expandFrom, if_neg (by simp)]
      simpa [Glyph.ofChars, Piece.ofGlyphs] using Follows.pure output
  | dangling =>
      refine expandFrom_char (charAt_length front '\\' []) (isEscaped_length complete _)
        (by decide) ?_
      rw [expandFrom, if_neg (by simp), Piece.ofGlyphs_dangling, mapM_expand_cons]
      simpa [Piece.expand, Glyph.chars] using Follows.pure (output ++ ['\\'])
  | escape char rest ih =>
      have next := ih (complete.append (complete_escape char)) (output ++ ['\\', char])
      rw [List.append_assoc, List.length_append] at next
      have stands := charAt_length (front ++ ['\\']) char rest
      rw [List.append_assoc, List.length_append] at stands
      refine expandFrom_char (charAt_length front '\\' _) (isEscaped_length complete _)
        (by decide) (expandFrom_char stands (isEscaped_behind complete _) (by simp) ?_)
      rw [Piece.ofGlyphs_escape, mapM_expand_cons, List.append_assoc]
      simpa [Piece.expand, Glyph.chars] using next
  | plain char rest noEscape noBrace ih =>
      have next := ih (complete.append (complete_singleton noEscape)) (output ++ [char])
      simp only [List.append_assoc, List.singleton_append, List.length_append,
        List.length_singleton] at next
      refine expandFrom_char (charAt_length front char rest) (isEscaped_length complete _)
        (fun opens => noBrace opens.1) ?_
      rw [Piece.ofGlyphs_plain _ noEscape noBrace, mapM_expand_cons]
      simpa [Piece.expand, Glyph.chars] using next
  | unended rest never =>
      rw [Piece.ofGlyphs_unended _ never, mapM_expand_cons, Piece.expand, stops]
      exact expandFrom_unended complete never output
  | reference name rest balanced ih =>
      have next := ih (complete.append (complete_reference balanced))
      rw [Piece.ofGlyphs_reference _ balanced, mapM_expand_cons, Piece.expand, bind_assoc]
      refine expandFrom_reference bodies complete balanced rest output ?_
      intro expansion
      rw [pure_bind]
      have later := next (output ++ '(' :: (expansion.toList ++ [')']))
      rw [length_reference, append_reference] at later
      have place : front.length + name.length + 2 = front.length + 1 + name.length + 1 := by omega
      rw [place]
      exact later

theorem expand_follows (bodies : ∀ name, Follows (body name) (plain name))
    (stops : ∀ {α β : Type} (fault : PatternError) (next : α → m β),
      (throw fault : m α) >>= next = throw fault) (text : String) :
    Follows (expand body text) (expandReferences plain text) := by
  have parts : Follows (expandFrom body text text.toList 0 []) _ :=
    expandFrom_follows bodies stops complete_nil text.toList []
  have whole := parts.bind fun chars => Follows.pure (String.ofList chars)
  rw [bind_assoc] at whole
  simpa [expand, expandReferences, Piece.ofText] using whole

end Expand

theorem substitute_follows (table : DefinitionTable) (text : String) :
    Follows (substitute table text) (table.substitute text) :=
  expand_follows (fun _ => .lift _) (fun _ _ => rfl) text

theorem resolveName_follows (table : DefinitionTable) (path : List String) (name : String) :
    Follows (resolveName table path name) (table.resolveName path name) := by
  rw [resolveName, DefinitionTable.resolveName]
  apply Follows.bind
  · exact Follows.lift (get : StateT DefinitionTable (Except PatternError) DefinitionTable)
  intro finished
  cases finished.get? name with
  | some expanded => exact .pure expanded
  | none =>
      dsimp only
      generalize found : table.get? name = text?
      cases text? with
      | none => exact Follows.lift _
      | some text =>
          dsimp only
          by_cases onPath : name ∈ path
          · rw [dif_pos onPath, dif_pos onPath]
            exact Follows.lift _
          · have declared := DefinitionTable.mem_names_of_get? found
            have := DefinitionTable.unvisited_cons_lt declared onPath
            have inner := resolveName_follows table (name :: path)
            have expanded := expand_follows inner (fun _ _ => rfl) text
            rw [dif_neg onPath, dif_neg onPath]
            refine expanded.bind fun value => Follows.bind ?_ fun _ => .pure value
            exact Follows.lift (modify fun finished => finished.declare name value :
              StateT DefinitionTable (Except PatternError) Unit)
termination_by table.unvisited path

theorem resolve_follows (table : DefinitionTable) : Follows (resolve table) table.resolve := by
  have each : ∀ entry : String × String, Follows (do
      let expanded ← resolveName table [] entry.1
      return (entry.1, expanded)) (do
      let expanded ← table.resolveName [] entry.1
      return (entry.1, expanded)) :=
    fun entry => (resolveName_follows table [] entry.1).bind fun _ => .pure _
  exact ((Follows.mapM each table.entries).run' {}).bind fun _ => .pure _

end Positional

end MaximalMunch
