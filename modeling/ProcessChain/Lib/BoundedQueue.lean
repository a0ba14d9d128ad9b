import ProcessChain.Lib.Transducer
import Mathlib.Data.Nat.ModEq

/-! Bounded first-in first-out channels that can be closed, and the ring of
cells that usually stores their items. A caller that finds the channel full or
empty is blocked and tries again later; between two tries anything may happen. -/

namespace ProcessChain.Lib

inductive Attempt (α : Type)
  | put (item : α)
  | take
  | close

inductive Outcome (α : Type)
  | blocked
  | stored
  | refused
  | taken (item : α)
  | drained
  | closed

structure Channel (α : Type) where
  items : List α
  closed : Bool

namespace Channel

variable {α : Type}

def empty : Channel α := ⟨[], false⟩

def attempt (capacity : Nat) (channel : Channel α) : Attempt α → Outcome α × Channel α
  | .put item =>
    if channel.closed then (.refused, channel)
    else if channel.items.length < capacity then (.stored, { channel with items := channel.items ++ [item] })
    else (.blocked, channel)
  | .take =>
    match channel.items with
    | item :: rest => (.taken item, { channel with items := rest })
    | [] => (if channel.closed then .drained else .blocked, channel)
  | .close => (.closed, { channel with closed := true })

abbrev Past (α : Type) := List (Attempt α × Outcome α)

def storedItem : Attempt α × Outcome α → Option α
  | (.put item, .stored) => some item
  | _ => none

def takenItem : Attempt α × Outcome α → Option α
  | (_, .taken item) => some item
  | _ => none

def stored (past : Past α) : List α := past.filterMap storedItem

def taken (past : Past α) : List α := past.filterMap takenItem

/-- What was stored has been taken, in order, up to what the channel holds. -/
structure Ordered (capacity : Nat) (past : Past α) (channel : Channel α) : Prop where
  items : stored past = taken past ++ channel.items
  bounded : channel.items.length ≤ capacity
  closed : (∃ outcome, (.close, outcome) ∈ past) → channel.closed = true

theorem ordered_attempt {capacity : Nat} (past : Past α) (channel : Channel α) (input : Attempt α)
    (ordered : Ordered capacity past channel) :
    Ordered capacity (past ++ [(input, (channel.attempt capacity input).1)]) (channel.attempt capacity input).2 := by
  obtain ⟨items, bounded, closed⟩ := ordered
  -- only storing and taking change the lists; closing only sets the flag
  have unchanged {outcome : Outcome α} (noStore : storedItem (input, outcome) = none)
      (noTake : takenItem (input, outcome) = none) (notClosing : input ≠ .close) :
      Ordered capacity (past ++ [(input, outcome)]) channel := by
    refine ⟨by simpa [stored, taken, noStore, noTake] using items, bounded, ?_⟩
    intro asked
    obtain ⟨other, member⟩ := asked
    rcases List.mem_append.mp member with before | now
    · exact closed ⟨other, before⟩
    · simp only [List.mem_singleton, Prod.mk.injEq] at now
      exact absurd now.1.symm notClosing
  cases input with
  | put item =>
    simp only [attempt]
    split
    · exact unchanged rfl rfl (by simp)
    · split
      next room =>
        refine ⟨?_, by simpa using Nat.succ_le_of_lt room, by simpa using closed⟩
        simp only [stored, taken] at items
        simp [stored, taken, storedItem, takenItem, items]
      · exact unchanged rfl rfl (by simp)
  | take =>
    simp only [attempt]
    split
    next item rest held =>
      rw [held] at items bounded
      refine ⟨?_, ?_, by simpa using closed⟩
      · simp only [stored, taken] at items
        simp [stored, taken, storedItem, takenItem, items]
      · simp only [List.length_cons] at bounded
        simp only
        omega
    next held =>
      cases channel.closed
      · exact unchanged rfl rfl (by simp)
      · exact unchanged rfl rfl (by simp)
  | close =>
    refine ⟨?_, bounded, fun _ => rfl⟩
    have noStore : storedItem ((.close, .closed) : Attempt α × Outcome α) = none := rfl
    have noTake : takenItem ((.close, .closed) : Attempt α × Outcome α) = none := rfl
    simpa [attempt, stored, taken, noStore, noTake] using items

theorem ordered_trace (capacity : Nat) (inputs : List (Attempt α)) :
    Ordered capacity (trace (attempt capacity) empty inputs).1 (trace (attempt capacity) empty inputs).2 :=
  trace_preserves ⟨rfl, Nat.zero_le _, by simp⟩ ordered_attempt inputs

/-- A closed channel stores nothing any more. -/
theorem closed_stores {capacity : Nat} {channel : Channel α} (closed : channel.closed = true)
    (inputs : List (Attempt α)) : stored (trace (attempt capacity) channel inputs).1 = [] := by
  induction inputs generalizing channel with
  | nil => rfl
  | cons input rest ih =>
    have here : storedItem (input, (channel.attempt capacity input).1) = none ∧
        (channel.attempt capacity input).2.closed = true := by
      cases input with
      | put item => simp [attempt, closed, storedItem]
      | take =>
        simp only [attempt]
        split <;> simp [closed, storedItem]
      | close => simp [attempt, storedItem]
    have later := ih here.2
    simp only [stored] at later
    simp only [trace, stored, List.filterMap_cons, here.1, later]

theorem stored_after_close {capacity : Nat} {inputs : List (Attempt α)} {earlier later : Past α} {outcome : Outcome α}
    (split : (trace (attempt capacity) empty inputs).1 = earlier ++ later) (asked : (.close, outcome) ∈ earlier) :
    stored later = [] := by
  obtain ⟨before, after, rfl, rfl, rfl⟩ := trace_record split
  exact closed_stores ((ordered_trace capacity before).closed ⟨outcome, asked⟩) after

/-- A taker is turned away only when everything stored has been taken. -/
theorem drained_empty {capacity : Nat} {inputs : List (Attempt α)} {earlier later : Past α}
    (split : (trace (attempt capacity) empty inputs).1 = earlier ++ (.take, .drained) :: later) :
    stored earlier = taken earlier := by
  obtain ⟨before, after, rfl, rfl, answered⟩ := trace_record split
  have ordered := ordered_trace capacity before
  cases after with
  | nil => cases answered
  | cons input rest =>
    simp only [trace, List.cons.injEq, Prod.mk.injEq] at answered
    obtain ⟨⟨rfl, outcome⟩, _⟩ := answered
    simp only [attempt] at outcome
    split at outcome
    · cases outcome
    next none => rw [ordered.items, none, List.append_nil]

end Channel

section Ring

variable {α : Type} {capacity : Nat} [NeZero capacity]

/-- The cells from `start` on, around the ring. -/
def window (cells : Vector α capacity) (start count : Nat) : List α :=
  (List.range count).map fun offset => cells[Fin.ofNat capacity (start + offset)]

private theorem ofNat_inj {start first second : Nat} (small : first < capacity) (also : second < capacity)
    (same : Fin.ofNat capacity (start + first) = Fin.ofNat capacity (start + second)) : first = second := by
  have values := congrArg Fin.val same
  simp only [Fin.val_ofNat] at values
  have shifted := Nat.ModEq.add_left_cancel' start values
  exact Nat.ModEq.eq_of_lt_of_lt shifted small also

theorem window_write (cells : Vector α capacity) {start count : Nat} (room : count < capacity) (item : α)
    {position : Fin capacity} (next : position = Fin.ofNat capacity (start + count)) :
    window (cells.set position item) start (count + 1) = window cells start count ++ [item] := by
  subst next
  simp only [window, List.range_succ, List.map_append, List.map_singleton]
  congr 1
  · apply List.map_congr_left
    intro offset member
    have inside := List.mem_range.mp member
    -- the written cell is none of those before it
    have other : Fin.ofNat capacity (start + count) ≠ Fin.ofNat capacity (start + offset) := by
      intro same
      have equal := ofNat_inj room (by omega) same
      omega
    have different : (Fin.ofNat capacity (start + count)).val ≠ (Fin.ofNat capacity (start + offset)).val :=
      fun same => other (Fin.ext same)
    simp only [Fin.getElem_fin, Vector.getElem_set_ne _ _ different]
  · simp only [Fin.getElem_fin, Vector.getElem_set_self]

theorem window_advance (cells : Vector α capacity) (start count : Nat) :
    window cells start (count + 1) = cells[Fin.ofNat capacity start] :: window cells (start + 1) count := by
  simp only [window, List.range_succ_eq_map, List.map_cons, Nat.add_zero, List.map_map, List.cons.injEq, true_and]
  apply List.map_congr_left
  intro offset _
  simp only [Function.comp_apply, Nat.succ_eq_add_one, Nat.add_assoc, Nat.add_comm 1]

theorem window_mod (cells : Vector α capacity) (start count : Nat) :
    window cells (start % capacity) count = window cells start count := by
  apply List.map_congr_left
  intro offset _
  congr 1
  apply Fin.ext
  simp

end Ring

end ProcessChain.Lib
