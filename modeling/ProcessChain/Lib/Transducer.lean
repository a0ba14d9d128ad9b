import Mathlib.Data.List.Basic

/-! Machines that answer one input at a time. A run is kept as the record of its
inputs with their answers, so that what a machine promised earlier can be
compared with what it does later. -/

namespace ProcessChain.Lib

variable {σ τ ι κ ο π : Type}

/-- The answered inputs of a run, and the state at its end. -/
def trace (step : σ → ι → ο × σ) : σ → List ι → List (ι × ο) × σ
  | state, [] => ([], state)
  | state, input :: rest =>
    let later := trace step (step state input).2 rest
    ((input, (step state input).1) :: later.1, later.2)

theorem trace_append (step : σ → ι → ο × σ) (state : σ) (first second : List ι) :
    trace step state (first ++ second) =
      ((trace step state first).1 ++ (trace step (trace step state first).2 second).1,
        (trace step (trace step state first).2 second).2) := by
  induction first generalizing state with
  | nil => rfl
  | cons input rest ih => simp only [List.cons_append, trace, ih]

/-- A property of the past and the present that every step keeps. -/
theorem trace_preserves {step : σ → ι → ο × σ} {property : List (ι × ο) → σ → Prop} {start : σ}
    (initially : property [] start)
    (kept : ∀ past state input, property past state →
      property (past ++ [(input, (step state input).1)]) (step state input).2)
    (inputs : List ι) : property (trace step start inputs).1 (trace step start inputs).2 := by
  have onward : ∀ past state, property past state →
      property (past ++ (trace step state inputs).1) (trace step state inputs).2 := by
    induction inputs with
    | nil =>
      intro past state holds
      simpa [trace] using holds
    | cons input rest ih =>
      intro past state holds
      have next := ih _ _ (kept past state input holds)
      simpa [trace] using next
  simpa using onward [] start initially

/-- Every answer in a record was given in the state that the run had reached there. -/
theorem trace_record {step : σ → ι → ο × σ} {state : σ} {inputs : List ι} {earlier later : List (ι × ο)}
    (split : (trace step state inputs).1 = earlier ++ later) :
    ∃ before after, inputs = before ++ after ∧ (trace step state before).1 = earlier ∧
      (trace step (trace step state before).2 after).1 = later := by
  induction inputs generalizing state earlier with
  | nil =>
    obtain ⟨rfl, rfl⟩ := List.append_eq_nil_iff.mp (split.symm.trans rfl)
    exact ⟨[], [], rfl, rfl, rfl⟩
  | cons input rest ih =>
    cases earlier with
    | nil => exact ⟨[], input :: rest, rfl, rfl, split⟩
    | cons first others =>
      simp only [trace, List.cons_append, List.cons.injEq] at split
      obtain ⟨before, after, rfl, past, future⟩ := ih split.2
      refine ⟨input :: before, after, rfl, ?_, future⟩
      simp only [trace, past, split.1]

/-- A machine follows another one if they start together and each step of the
first is a step of the second with the answer translated. -/
theorem trace_simulates {step : σ → ι → ο × σ} {model : τ → κ → π × τ} {related : σ → τ → Prop}
    {asked : ι → κ} {answered : ο → π}
    (follows : ∀ state abstract input, related state abstract →
      answered (step state input).1 = (model abstract (asked input)).1 ∧
        related (step state input).2 (model abstract (asked input)).2)
    {state : σ} {abstract : τ} (start : related state abstract) (inputs : List ι) :
    (trace step state inputs).1.map (Prod.map asked answered) = (trace model abstract (inputs.map asked)).1 ∧
      related (trace step state inputs).2 (trace model abstract (inputs.map asked)).2 := by
  induction inputs generalizing state abstract with
  | nil => exact ⟨rfl, start⟩
  | cons input rest ih =>
    obtain ⟨answer, next⟩ := follows state abstract input start
    obtain ⟨record, final⟩ := ih next
    refine ⟨?_, final⟩
    simp only [trace, List.map_cons, record, Prod.map_apply, answer]

end ProcessChain.Lib
