import ProcessChain.Lib.FailStop

/-! Programs that run against a supplier and go on after a refusal. Two things
are said about such a program at once: what holds of its value whatever is
refused, and what holds of it in a run in which nothing is. -/

namespace ProcessChain.Lib

variable {α β : Type}

structure Ensures (program : StateM Supply α) (always granted : α → Prop) : Prop where
  always : ∀ supply, always (program supply).1
  granted : ∀ supply, (program supply).2.refused = false → supply.refused = false ∧ granted (program supply).1

namespace Ensures

variable {always granted : α → Prop} {lastly unhindered : β → Prop}

theorem pure {value : α} (holds : always value) (also : granted value) :
    Ensures (Pure.pure value) always granted :=
  ⟨fun _ => holds, fun _ kept => ⟨kept, also⟩⟩

/-- The second program may use what the first ensures; its unhindered result
counts only where the first was unhindered as well. -/
theorem bind {first : StateM Supply α} {next : α → StateM Supply β} (start : Ensures first always granted)
    (rest : ∀ value, always value → Ensures (next value) lastly fun final => granted value → unhindered final) :
    Ensures (first >>= next) lastly unhindered := by
  refine ⟨fun supply => (rest _ (start.always supply)).always _, fun supply kept => ?_⟩
  obtain ⟨middle, final⟩ := (rest _ (start.always supply)).granted _ kept
  obtain ⟨initial, value⟩ := start.granted supply middle
  exact ⟨initial, final value⟩

theorem weaken {program : StateM Supply α} {weaker hindered : α → Prop} (holds : Ensures program always granted)
    (first : ∀ value, always value → weaker value) (second : ∀ value, always value → granted value → hindered value) :
    Ensures program weaker hindered :=
  ⟨fun supply => first _ (holds.always supply),
    fun supply kept => ⟨(holds.granted supply kept).1, second _ (holds.always supply) (holds.granted supply kept).2⟩⟩

end Ensures

/-- What holds of the value of a program whatever is refused. -/
def Always (program : StateM Supply α) (post : α → Prop) : Prop := ∀ supply, post (program supply).1

namespace Always

variable {post : β → Prop}

theorem pure {value : β} (holds : post value) : Always (Pure.pure value) post := fun _ => holds

theorem bind {first : StateM Supply α} {next : α → StateM Supply β} (rest : ∀ value, Always (next value) post) :
    Always (first >>= next) post := fun supply => rest _ (first supply).2

end Always

/-- A fail-stop program under a supplier. -/
theorem FailStop.ensures {ε : Type} (limit : Nat) (program : FailStop ε α) :
    Ensures (program.run limit) (fun result => ∀ value, result = .ok value → program.result = .ok value)
      fun result => result = program.result ∧ ∀ request ∈ program.requests, request.size ≤ limit :=
  ⟨fun _ _ => run_ok, fun _ kept => ⟨run_keeps kept, run_granted kept⟩⟩

/-- A refusal is not hidden: where something was refused, the value is one of these. -/
def Reveals (program : StateM Supply α) (refused : α → Prop) : Prop :=
  ∀ supply, (program supply).2.refused = true → supply.refused = true ∨ refused (program supply).1

namespace Reveals

variable {refused : α → Prop} {lastly : β → Prop}

theorem pure (value : α) : Reveals (Pure.pure value) refused := fun _ earlier => Or.inl earlier

private theorem bindWhere {first : StateM Supply α} {next : α → StateM Supply β} {always : α → Prop}
    (known : ∀ supply, always (first supply).1) (start : Reveals first refused)
    (rest : ∀ value, always value → Reveals (next value) lastly)
    (stays : ∀ value, refused value → ∀ supply, lastly (next value supply).1) : Reveals (first >>= next) lastly := by
  intro supply late
  rcases rest _ (known supply) _ late with middle | final
  · rcases start supply middle with earlier | value
    · exact Or.inl earlier
    · exact Or.inr (stays _ value _)
  · exact Or.inr final

/-- A refusal in the first program decides the value of the second one. -/
theorem bind {first : StateM Supply α} {next : α → StateM Supply β} (start : Reveals first refused)
    (rest : ∀ value, Reveals (next value) lastly)
    (stays : ∀ value, refused value → ∀ supply, lastly (next value supply).1) : Reveals (first >>= next) lastly := by
  have known : ∀ supply, Function.const α True (first supply).1 := fun _ => trivial
  exact bindWhere known start (fun value _ => rest value) stays

/-- The second program counts only for the values that the first one can have. -/
theorem bindEnsured {first : StateM Supply α} {next : α → StateM Supply β} {always granted : α → Prop}
    (holds : Ensures first always granted) (start : Reveals first refused)
    (rest : ∀ value, always value → Reveals (next value) lastly)
    (stays : ∀ value, refused value → ∀ supply, lastly (next value supply).1) : Reveals (first >>= next) lastly :=
  bindWhere holds.always start rest stays

end Reveals

/-- A fail-stop program ends with an error where it is refused something. -/
theorem FailStop.reveals {ε : Type} (limit : Nat) (program : FailStop ε α) :
    Reveals (program.run limit) fun result => ∃ error, result = .error error := by
  have served (requests : List (Request ε)) (supply : Supply)
      (complete : (Supply.serve limit requests supply).1 = none) :
      (Supply.serve limit requests supply).2.refused = supply.refused := by
    induction requests generalizing supply with
    | nil => rfl
    | cons request rest ih =>
      simp only [Supply.serve] at complete ⊢
      split at complete
      next granted =>
        rw [if_pos granted, ih _ complete]
        simp only [Supply.answer] at granted ⊢
        rw [granted, Bool.not_true, Bool.or_false]
      next => cases complete
  intro supply late
  have same := served program.requests supply
  simp only [FailStop.run] at late ⊢
  generalize Supply.serve limit program.requests supply = outcome at late same ⊢
  obtain ⟨refusal, later⟩ := outcome
  cases refusal with
  | none => exact Or.inl ((same rfl).symm.trans late)
  | some error => exact Or.inr ⟨error, rfl⟩

/-- A supplier that grants everything within the limit. -/
def Supply.generous : Supply := ⟨[], false⟩

/-- The program is never refused anything by a generous supplier, and its value there. -/
structure Grants (program : StateM Supply α) (post : α → Prop) : Prop where
  supply : (program .generous).2 = .generous
  value : post (program .generous).1

namespace Grants

variable {post : α → Prop} {final : β → Prop}

theorem pure {value : α} (holds : post value) : Grants (Pure.pure value) post := ⟨rfl, holds⟩

theorem bind {first : StateM Supply α} {next : α → StateM Supply β} (start : Grants first post)
    (rest : ∀ value, post value → Grants (next value) final) : Grants (first >>= next) final := by
  have later := rest _ start.value
  have same : (first >>= next) .generous = next (first .generous).1 (first .generous).2 := rfl
  rw [start.supply] at same
  refine ⟨?_, ?_⟩
  · rw [same]
    exact later.supply
  · rw [same]
    exact later.value

theorem weaken {program : StateM Supply α} {weaker : α → Prop} (grants : Grants program post)
    (implies : ∀ value, post value → weaker value) : Grants program weaker :=
  ⟨grants.supply, implies _ grants.value⟩

/-- What the program ensures whatever is refused. -/
theorem always {program : StateM Supply α} {certain granted : α → Prop} (grants : Grants program post)
    (holds : Ensures program certain granted) : Grants program certain :=
  ⟨grants.supply, holds.always .generous⟩

/-- What the program ensures where nothing is refused. -/
theorem ensured {program : StateM Supply α} {always granted : α → Prop} (grants : Grants program post)
    (holds : Ensures program always granted) : Grants program granted := by
  refine ⟨grants.supply, (holds.granted .generous ?_).2⟩
  rw [grants.supply]
  rfl

end Grants

theorem FailStop.grants {ε : Type} {limit : Nat} {program : FailStop ε α} (within : program.Within limit) :
    Grants (program.run limit) fun result => result = program.result := by
  have served (requests : List (Request ε)) (small : ∀ request ∈ requests, request.size ≤ limit) :
      Supply.serve limit requests .generous = (none, .generous) := by
    induction requests with
    | nil => rfl
    | cons request rest ih =>
      have later := ih fun request member => small request (by simp [member])
      simpa [Supply.serve, Supply.answer, small request (by simp), Supply.generous] using later
  have ran : program.run limit .generous = (program.result, .generous) := by
    simp only [run, served program.requests within]
  exact ⟨by rw [ran], by rw [ran]⟩

end ProcessChain.Lib
