import Mathlib.Data.List.Infix

/-! Texts made of pieces with a separator between them. Cutting at the first
occurrence of the separator undoes joining exactly when no piece lets the
separator start early, which a piece can do by containing it or by ending in
the beginning of it. -/

namespace ProcessChain.Lib

variable {α : Type} [DecidableEq α]

/-- The text before and after the first occurrence of the separator. -/
def cutAt (separator : List α) : List α → Option (List α × List α)
  | [] => if separator = [] then some ([], []) else none
  | letter :: rest =>
    if separator <+: letter :: rest then some ([], (letter :: rest).drop separator.length)
    else (cutAt separator rest).map fun (before, after) => (letter :: before, after)

/-- A piece in front of a separator does not let the separator start early. -/
def Free (separator piece : List α) : Prop := ¬ separator <:+: piece ++ separator.dropLast

omit [DecidableEq α] in
private theorem before_last (separator piece after : List α) :
    piece ++ separator.dropLast <+: piece ++ (separator ++ after) :=
  (List.prefix_append_right_inj piece).mpr ((List.dropLast_prefix separator).trans (List.prefix_append _ _))

theorem cutAt_none {separator text : List α} (nonempty : separator ≠ []) :
    cutAt separator text = none ↔ ¬ separator <:+: text := by
  induction text with
  | nil => simp [cutAt, nonempty]
  | cons letter rest ih =>
    simp only [cutAt, List.infix_cons_iff]
    split <;> simp_all

theorem cutAt_append {separator before : List α} (nonempty : separator ≠ []) (free : Free separator before)
    (after : List α) : cutAt separator (before ++ (separator ++ after)) = some (before, after) := by
  induction before with
  | nil =>
    cases separator with
    | nil => exact absurd rfl nonempty
    | cons head tail => simp [cutAt]
  | cons letter rest ih =>
    have later : Free separator rest := by
      intro early
      exact free (early.trans (by simpa using List.infix_append [letter] (rest ++ separator.dropLast) []))
    have notHere : ¬ separator <+: letter :: (rest ++ (separator ++ after)) := by
      intro starts
      -- an occurrence at the very beginning ends before the last letter of the real separator
      have within : separator <+: letter :: rest ++ separator.dropLast := by
        exact List.prefix_of_prefix_length_le starts (before_last separator (letter :: rest) after) (by simp; omega)
      exact free within.isInfix
    simp only [List.cons_append, cutAt, notHere, if_false, ih later, Option.map_some]

theorem cutAt_some {separator text before after : List α} (nonempty : separator ≠ [])
    (found : cutAt separator text = some (before, after)) :
    text = before ++ (separator ++ after) ∧ Free separator before := by
  induction text generalizing before with
  | nil => simp [cutAt, nonempty] at found
  | cons letter rest ih =>
    simp only [cutAt] at found
    split at found
    next starts =>
      obtain ⟨tail, same⟩ := starts
      rw [← same, List.drop_left] at found
      cases found
      refine ⟨by simpa using same.symm, ?_⟩
      intro early
      have shorter := early.length_le
      have positive := List.length_pos_iff.mpr nonempty
      simp only [List.nil_append, List.length_dropLast] at shorter
      omega
    next notHere =>
      obtain ⟨⟨earlier, remaining⟩, cut, same⟩ := Option.map_eq_some_iff.mp found
      cases same
      obtain ⟨rfl, free⟩ := ih cut
      refine ⟨by simp, ?_⟩
      intro early
      rcases List.infix_cons_iff.mp early with starts | inside
      · exact notHere (starts.trans (before_last separator (letter :: earlier) _))
      · exact free inside

theorem cutAt_shorter {separator text before after : List α} (nonempty : separator ≠ [])
    (found : cutAt separator text = some (before, after)) : after.length < text.length := by
  obtain ⟨rfl, _⟩ := cutAt_some nonempty found
  have positive := List.length_pos_iff.mpr nonempty
  simp only [List.length_append]
  omega

/-- Cutting a prefix of a text at a separator it contains cuts the whole text there. -/
theorem cutAt_cut {separator text before after front back : List α} (nonempty : separator ≠ [])
    (free : Free separator before) (start : text <+: before ++ (separator ++ after))
    (found : cutAt separator text = some (front, back)) : front = before ∧ back <+: after := by
  obtain ⟨rfl, early⟩ := cutAt_some nonempty found
  obtain ⟨missing, whole⟩ := start
  have first := cutAt_append nonempty early (back ++ missing)
  have second := cutAt_append nonempty free after
  rw [← whole, List.append_assoc, List.append_assoc, first] at second
  cases second
  exact ⟨rfl, List.prefix_append back missing⟩

/-- Repeated cutting at the first separator. -/
def pieces (separator text : List α) : List (List α) :=
  if _nonempty : separator ≠ [] then
    match _found : cutAt separator text with
    | none => [text]
    | some (before, after) => before :: pieces separator after
  else [text]
termination_by text.length
decreasing_by exact cutAt_shorter _nonempty _found

theorem pieces_uncut {separator text : List α} (uncut : cutAt separator text = none) : pieces separator text = [text] := by
  rw [pieces]
  split
  · split
    · rfl
    next found => rw [uncut] at found; cases found
  · rfl

theorem pieces_cut {separator text before after : List α} (nonempty : separator ≠ [])
    (cut : cutAt separator text = some (before, after)) : pieces separator text = before :: pieces separator after := by
  rw [pieces, dif_pos nonempty]
  split
  next found => rw [cut] at found; cases found
  next found =>
    rw [cut] at found
    cases found
    rfl

/-- Lists of pieces that survive joining. -/
def Separable (separator : List α) : List (List α) → Prop
  | [] => False
  | [piece] => ¬ separator <:+: piece
  | piece :: next :: rest => Free separator piece ∧ Separable separator (next :: rest)

theorem intercalate_pieces (separator text : List α) :
    separator.intercalate (pieces separator text) = text := by
  fun_induction pieces separator text with
  | case1 text nonempty found => simp
  | case2 text nonempty before after found ih =>
    have some : pieces separator after ≠ [] := by
      rw [pieces, dif_pos nonempty]
      split <;> simp
    rw [List.intercalate_cons_of_ne_nil some, ih, List.append_assoc]
    exact (cutAt_some nonempty found).1.symm
  | case3 => simp

theorem pieces_separable {separator : List α} (nonempty : separator ≠ []) (text : List α) :
    Separable separator (pieces separator text) := by
  fun_induction pieces separator text with
  | case1 text _ found => exact (cutAt_none nonempty).mp found
  | case2 text _ before after found ih =>
    cases rest : pieces separator after with
    | nil => simp [rest, Separable] at ih
    | cons next others => exact ⟨(cutAt_some nonempty found).2, by rwa [rest] at ih⟩
  | case3 text empty => exact absurd nonempty empty

theorem pieces_intercalate {separator : List α} (nonempty : separator ≠ []) {parts : List (List α)}
    (separable : Separable separator parts) : pieces separator (separator.intercalate parts) = parts := by
  fun_induction Separable separator parts with
  | case1 => exact separable.elim
  | case2 piece =>
    rw [List.intercalate_singleton]
    exact pieces_uncut ((cutAt_none nonempty).mpr separable)
  | case3 piece next rest ih =>
    rw [List.intercalate_cons_cons, List.append_assoc,
      pieces_cut nonempty (cutAt_append nonempty separable.1 (separator.intercalate (next :: rest))), ih separable.2]

omit [DecidableEq α] in
/-- No piece that survives joining contains the separator. -/
theorem separable_whole {separator : List α} {parts : List (List α)} (separable : Separable separator parts) :
    ∀ piece ∈ parts, ¬ separator <:+: piece := by
  fun_induction Separable separator parts with
  | case1 => exact separable.elim
  | case2 piece => simpa using separable
  | case3 piece next rest ih =>
    intro other member
    rcases List.mem_cons.mp member with rfl | later
    · intro occurs
      exact separable.1 (occurs.trans (List.prefix_append _ _).isInfix)
    · exact ih separable.2 other later

omit [DecidableEq α] in
/-- A piece without any letter of the separator may stand anywhere. -/
theorem free_of_disjoint {separator piece : List α} (nonempty : separator ≠ [])
    (disjoint : separator.head nonempty ∉ piece) : Free separator piece := by
  cases separator with
  | nil => exact absurd rfl nonempty
  | cons head tail =>
    intro occurs
    obtain ⟨before, after, same⟩ := occurs
    have long := congrArg List.length same
    simp only [List.length_append, List.length_cons, List.length_dropLast, List.append_assoc] at long
    -- the first letter of the occurrence would have to lie inside the piece
    have inside : before.length < piece.length := by omega
    have letter : (piece ++ (head :: tail).dropLast)[before.length]? = some head := by
      rw [← same]; simp
    rw [List.getElem?_append_left inside] at letter
    exact disjoint (List.mem_of_getElem? letter)

omit [DecidableEq α] in
theorem separable_of_disjoint {separator : List α} (nonempty : separator ≠ []) {parts : List (List α)}
    (some : parts ≠ []) (disjoint : ∀ piece ∈ parts, separator.head nonempty ∉ piece) :
    Separable separator parts := by
  fun_induction Separable separator parts with
  | case1 => exact some rfl
  | case2 piece =>
    intro occurs
    exact disjoint piece (by simp) (occurs.subset (List.head_mem nonempty))
  | case3 piece next rest ih =>
    exact ⟨free_of_disjoint nonempty (disjoint piece (by simp)),
      ih (by simp) (fun piece member => disjoint piece (by simp [member]))⟩

omit [DecidableEq α] in
/-- A separator of two equal letters starts early only inside a piece or at its last letter. -/
theorem free_doubled {letter : α} {piece : List α} :
    Free [letter, letter] piece ↔ ¬ [letter, letter] <:+: piece ∧ piece.getLast? ≠ some letter := by
  have closing : [letter, letter] <:+ piece ++ [letter] ↔ piece.getLast? = some letter := by
    rw [show [letter, letter] = [letter] ++ [letter] from rfl, List.suffix_append_self_iff, List.getLast?_eq_some_iff]
    constructor
    · intro ends
      obtain ⟨front, same⟩ := ends
      exact ⟨front, same.symm⟩
    · intro ends
      obtain ⟨front, same⟩ := ends
      exact ⟨front, same.symm⟩
  rw [Free, show [letter, letter].dropLast = [letter] from rfl, List.infix_concat_iff, closing, not_or, and_comm]

omit [DecidableEq α] in
theorem separable_doubled {letter : α} {parts : List (List α)} (some : parts ≠ [])
    (whole : ∀ piece ∈ parts, ¬ [letter, letter] <:+: piece) :
    Separable [letter, letter] parts ↔ ∀ piece ∈ parts.dropLast, piece.getLast? ≠ Option.some letter := by
  fun_induction Separable [letter, letter] parts with
  | case1 => exact absurd rfl some
  | case2 piece => simpa using whole piece (by simp)
  | case3 piece next rest ih =>
    have later := ih (by simp) fun piece member => whole piece (by simp [member])
    rw [later, free_doubled, List.dropLast_cons_of_ne_nil (List.cons_ne_nil next rest), List.forall_mem_cons]
    exact and_congr_left fun _ => and_iff_right (whole piece (by simp))

/-- Non-empty runs between delimiters. -/
def tokens (delimiter : α) (text : List α) : List (List α) := (text.splitOn delimiter).filter (· ≠ [])

omit [DecidableEq α] in
theorem subset_intercalate (separator : List α) {piece : List α} {parts : List (List α)} (member : piece ∈ parts) :
    piece ⊆ separator.intercalate parts := by
  induction parts with
  | nil => cases member
  | cons first rest ih =>
    cases rest with
    | nil => simp_all
    | cons next others =>
      rw [List.intercalate_cons_cons]
      rcases List.mem_cons.mp member with rfl | later
      · exact List.subset_append_of_subset_left _ (List.subset_append_left _ _)
      · exact List.subset_append_of_subset_right _ (ih later)

theorem mem_tokens_subset {delimiter : α} {text token : List α} (member : token ∈ tokens delimiter text) : token ⊆ text := by
  have inside := subset_intercalate [delimiter] (List.mem_filter.mp member).1
  rwa [List.intercalate_splitOn] at inside

/-- The tokens of a text cut from some lines are cut from one line each. -/
theorem mem_tokens_cut {delimiter : α} {lines : List (List α)} {text token : List α}
    (clean : ∀ line ∈ lines, delimiter ∉ line) (cut : text <+: lines.flatMap (· ++ [delimiter]))
    (member : token ∈ tokens delimiter text) : ∃ line ∈ lines, token <+: line := by
  simp only [tokens, List.mem_filter, decide_eq_true_eq] at member
  obtain ⟨member, visible⟩ := member
  induction lines generalizing text with
  | nil => simp_all
  | cons line rest ih =>
    simp only [List.flatMap_cons, List.append_assoc, List.singleton_append] at cut
    have here := clean line (by simp)
    by_cases short : text.length ≤ line.length
    · have start := List.prefix_of_prefix_length_le cut (List.prefix_append line _) short
      rw [List.splitOn_eq_singleton (fun inside => here (start.subset inside)), List.mem_singleton] at member
      exact ⟨line, by simp, member ▸ start⟩
    · obtain ⟨tail, rfl⟩ : line ++ [delimiter] <+: text :=
        List.prefix_of_prefix_length_le ⟨rest.flatMap (· ++ [delimiter]), by simp⟩ cut (by simp; omega)
      rw [List.append_assoc, List.singleton_append, List.splitOn_append_cons_self_of_not_mem here,
        List.mem_cons] at member
      rcases member with rfl | member
      · exact ⟨token, by simp, List.prefix_rfl⟩
      · simp only [List.append_assoc, List.singleton_append, List.prefix_append_right_inj,
          List.prefix_cons_inj] at cut
        obtain ⟨found, inside, start⟩ := ih (fun line inside => clean line (by simp [inside])) cut member
        exact ⟨found, by simp [inside], start⟩

/-- A text cut from a line and what follows it ends in the line, or the line is its first token. -/
theorem tokens_cut {delimiter : α} {line rest text : List α} (clean : delimiter ∉ line) (visible : line ≠ [])
    (cut : text <+: line ++ delimiter :: rest) :
    (∀ token ∈ tokens delimiter text, token <+: line) ∧ (tokens delimiter text).length ≤ 1 ∨
      ∃ tail, tokens delimiter text = line :: tokens delimiter tail ∧ tail <+: rest := by
  by_cases short : text.length ≤ line.length
  · have start := List.prefix_of_prefix_length_le cut (List.prefix_append line _) short
    have whole := List.splitOn_eq_singleton (fun inside => clean (start.subset inside))
    refine Or.inl ⟨fun token member => ?_, ?_⟩
    · rw [tokens, whole] at member
      rw [List.mem_singleton.mp (List.mem_filter.mp member).1]
      exact start
    · rw [tokens, whole]
      exact List.length_filter_le _ _
  · obtain ⟨tail, rfl⟩ : line ++ [delimiter] <+: text :=
      List.prefix_of_prefix_length_le ⟨rest, List.append_assoc ..⟩ cut (by
        rw [List.length_append, List.length_singleton]
        exact Nat.lt_of_not_le short)
    simp only [List.append_assoc, List.singleton_append, List.prefix_append_right_inj, List.prefix_cons_inj] at cut
    refine Or.inr ⟨tail, ?_, cut⟩
    simp only [tokens, List.append_assoc, List.singleton_append, List.splitOn_append_cons_self_of_not_mem clean, List.filter_cons,
      ne_eq, visible, not_false_eq_true, decide_true, if_true]

/-- Lines written with a delimiter behind each are the tokens of the text. -/
theorem tokens_lines {delimiter : α} {lines : List (List α)} (clean : ∀ line ∈ lines, delimiter ∉ line)
    (visible : ∀ line ∈ lines, line ≠ []) : tokens delimiter (lines.flatMap (· ++ [delimiter])) = lines := by
  induction lines with
  | nil => simp [tokens]
  | cons line rest ih =>
    have later := ih (fun line member => clean line (by simp [member])) fun line member => visible line (by simp [member])
    simp only [tokens] at later
    simp only [tokens, List.flatMap_cons, List.append_assoc, List.singleton_append,
      List.splitOn_append_cons_self_of_not_mem (clean line (by simp)), List.filter_cons, later, visible line (by simp),
      ne_eq, not_false_eq_true, decide_true, if_true]

theorem tokens_length (delimiter : α) (text : List α) : (tokens delimiter text).length ≤ text.length + 1 := by
  have splits : (text.splitOn delimiter).length ≤ text.length + 1 := by
    induction text with
    | nil => simp
    | cons letter rest ih =>
      rw [List.splitOn_cons_eq_if_modifyHead]
      split
      · simpa using ih
      · simp only [List.length_modifyHead, List.length_cons]
        omega
  exact (List.length_filter_le _ _).trans splits

end ProcessChain.Lib
