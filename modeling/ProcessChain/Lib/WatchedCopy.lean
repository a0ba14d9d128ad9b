import Mathlib.Data.List.Induction

/-! A copy of a shared value, watched by a flag. Whoever changes the value raises
the flag, and only the step that takes a new copy lowers it. While the flag is
down, the value has been the copy ever since the copy was taken. -/

namespace ProcessChain.Lib

structure Watch (σ ν : Type) where
  value : σ → ν
  raised : σ → Bool
  copy : σ → Option ν

namespace Watch

variable {σ ν ε : Type} {watch : Watch σ ν}

/-- A step that takes no copy leaves the flag up, or changes neither value nor flag. -/
inductive Quiet (watch : Watch σ ν) (before after : σ) : Prop
  | moves (raised : watch.raised after = true)
  | keeps (value : watch.value after = watch.value before) (raised : watch.raised after = watch.raised before)
      (copy : ∀ held ∈ watch.copy after, held ∈ watch.copy before)

/-- Only a step that `starts` something may take a copy. -/
inductive Step (watch : Watch σ ν) (starts : Prop) (before after : σ) : Prop
  | takes (starting : starts) (copied : watch.copy after = some (watch.value after))
  | quiet (quiet : watch.Quiet before after)

/-- Some step of the run took the copy; at every moment since then the flag was
down and the copy was the value. -/
structure Taken (watch : Watch σ ν) (starts : σ → ε → Prop) (step : σ → ε → σ) (state : σ) (events : List ε)
    (held : ν) (earlier : List ε) (event : ε) (later : List ε) : Prop where
  events : events = earlier ++ event :: later
  starting : starts (earlier.foldl step state) event
  since : ∀ part, part <+: later → let moment := (earlier ++ event :: part).foldl step state
    watch.raised moment = false ∧ watch.value moment = held

/-- No change of the value is missed by the holder of a copy that looks at the flag. -/
theorem run_taken {starts : σ → ε → Prop} {step : σ → ε → σ}
    (steps : ∀ state event, watch.Step (starts state event) state (step state event)) {state : σ}
    (none : watch.copy state = none) (events : List ε) (down : watch.raised (events.foldl step state) = false) :
    ∀ held ∈ watch.copy (events.foldl step state),
      ∃ earlier event later, watch.Taken starts step state events held earlier event later := by
  intro held member
  induction events using List.reverseRecOn with
  | nil =>
    rw [List.foldl_nil, none] at member
    cases member
  | append_singleton events event ih =>
    have last := steps (events.foldl step state) event
    rw [show step (events.foldl step state) event = (events ++ [event]).foldl step state by simp] at last
    cases last with
    | takes starting copied =>
      refine ⟨events, event, [], rfl, starting, fun part inside => ?_⟩
      rw [List.prefix_nil.mp inside]
      rw [copied] at member
      exact ⟨down, Option.some.inj member⟩
    | quiet quiet =>
      cases quiet with
      | moves raised =>
        rw [raised] at down
        cases down
      | keeps value raised copy =>
        obtain ⟨earlier, start, later, rfl, starting, since⟩ := ih (raised ▸ down) (copy held member)
        refine ⟨earlier, start, later ++ [event], by simp, starting, fun part inside => ?_⟩
        rcases List.prefix_concat_iff.mp inside with whole | inside
        · have now := (since later List.prefix_rfl).2
          rw [← value] at now
          simp only [whole, ← List.cons_append, ← List.append_assoc]
          exact ⟨down, now⟩
        · exact since part inside

end Watch
end ProcessChain.Lib
