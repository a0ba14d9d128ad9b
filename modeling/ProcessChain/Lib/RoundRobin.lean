import Mathlib.Data.Int.CardIntervalMod
import Mathlib.Data.Nat.Count

/-! Taking turns in a circle. The items of a list are asked one after the other, from
the last on again with the first, and those that are able take their turn. Turns are
numbered without end; the item of a turn is found by the remainder. -/

namespace ProcessChain.Lib

variable {α : Type} {items : List α} {able : α → Bool}

section Turns
variable (items able)

end Turns

private theorem count_filter (items : List α) (able : α → Bool) (position : Nat) :
    Nat.count (fun earlier => (items[earlier]?).any able = true) position = ((items.take position).filter able).length := by
  induction position with
  | zero => simp
  | succ position ih =>
    rw [Nat.count_succ, ih, List.take_add_one, List.filter_append, List.length_append]
    cases items[position]? with
    | none => simp
    | some item => by_cases isAble : able item = true <;> simp [isAble]

/-- These are served one after the other in a circle, from a certain one on. -/
def Rotates (circle : List α) (first : Nat) (served : List α) : Prop :=
  ∀ turn, turn < served.length → served[turn]? = circle[(first + turn) % circle.length]?

namespace Rotates

variable {circle served : List α} {first : Nat}

theorem nil : Rotates circle first [] := fun _ impossible => absurd impossible (Nat.not_lt_zero _)

end Rotates
end ProcessChain.Lib
