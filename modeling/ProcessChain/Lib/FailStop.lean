import Mathlib.Data.List.Basic

/-! Computations that ask an outside supplier for resources and stop, with an
error chosen by the caller, at the first refusal. Such a computation is fully
described by the requests it makes when nothing is refused and by its final
result, so a success under any supplier is the success of the unhindered
computation. -/

namespace ProcessChain.Lib

structure Request (ε : Type) where
  size : Nat
  refusal : ε

structure FailStop (ε α : Type) where
  requests : List (Request ε)
  result : Except ε α

/-- The answers still to come, in the order of the requests, and whether some
request has been refused so far. Past the listed answers every request within
the supplier's limit is granted. -/
structure Supply where
  answers : List Bool
  refused : Bool
deriving DecidableEq

namespace Supply

def answer (limit size : Nat) (supply : Supply) : Bool × Supply :=
  let granted := decide (size ≤ limit) && supply.answers.headD true
  (granted, ⟨supply.answers.tail, supply.refused || !granted⟩)

/-- The error of the first refused request, if there is one. -/
def serve {ε : Type} (limit : Nat) : List (Request ε) → Supply → Option ε × Supply
  | [], supply => (none, supply)
  | request :: rest, supply =>
    let (granted, later) := supply.answer limit request.size
    if granted then serve limit rest later else (some request.refusal, later)

end Supply

namespace FailStop

variable {ε α β : Type}

instance : Monad (FailStop ε) where
  pure value := ⟨[], .ok value⟩
  bind first next := match first.result with
    | .ok value => ⟨first.requests ++ (next value).requests, (next value).result⟩
    | .error error => ⟨first.requests, .error error⟩

def fail (error : ε) : FailStop ε α := ⟨[], .error error⟩

def request (size : Nat) (refusal : ε) : FailStop ε Unit := ⟨[⟨size, refusal⟩], .ok ()⟩

def failIf (condition : Prop) [Decidable condition] (error : ε) : FailStop ε Unit :=
  if condition then fail error else pure ()

/-- Every failure, a refusal included, is reported as `error`. -/
def orFail (error : ε) (program : FailStop ε α) : FailStop ε α :=
  ⟨program.requests.map ({ · with refusal := error }),
    match program.result with
    | .ok value => .ok value
    | .error _ => .error error⟩

def run (limit : Nat) (program : FailStop ε α) : StateM Supply (Except ε α) := fun supply =>
  match Supply.serve limit program.requests supply with
  | (none, later) => (program.result, later)
  | (some error, later) => (.error error, later)

@[simp] theorem result_pure (value : α) : (pure value : FailStop ε α).result = .ok value := rfl

@[simp] theorem result_fail (error : ε) : (fail error : FailStop ε α).result = .error error := rfl

@[simp] theorem result_request (size : Nat) (refusal : ε) : (request size refusal).result = .ok () := rfl

@[simp] theorem result_bind_eq_ok {first : FailStop ε α} {next : α → FailStop ε β} {value : β} :
    (first >>= next).result = .ok value ↔ ∃ middle, first.result = .ok middle ∧ (next middle).result = .ok value := by
  change (match first.result with
    | .ok value => FailStop.mk (first.requests ++ (next value).requests) (next value).result
    | .error error => ⟨first.requests, .error error⟩).result = .ok value ↔ _
  cases first.result <;> simp

@[simp] theorem result_ite {condition : Prop} [Decidable condition] (first second : FailStop ε α) :
    (if condition then first else second).result = if condition then first.result else second.result := by
  split <;> rfl

@[simp] theorem result_failIf_eq_ok {condition : Prop} [Decidable condition] {error : ε} {done : Unit} :
    (failIf condition error).result = .ok done ↔ ¬ condition := by
  unfold failIf
  split <;> simp_all

@[simp] theorem result_orFail_eq_ok {error : ε} {program : FailStop ε α} {value : α} :
    (program.orFail error).result = .ok value ↔ program.result = .ok value := by
  simp only [orFail]
  split <;> simp_all

/-- A check made of every item succeeds exactly when it succeeds on each. -/
@[simp] theorem result_forM_eq_ok {items : List α} {check : α → FailStop ε PUnit} {done : PUnit} :
    (forM items check).result = .ok done ↔ ∀ item ∈ items, (check item).result = .ok () := by
  induction items with
  | nil => simp
  | cons item rest ih =>
    simp only [List.forM_cons, result_bind_eq_ok, ih, List.mem_cons, forall_eq_or_imp]
    exact ⟨fun ⟨_, first, others⟩ => ⟨first, others⟩, fun ⟨first, others⟩ => ⟨_, first, others⟩⟩

private theorem serve_refused (limit : Nat) (requests : List (Request ε)) (supply : Supply)
    (granted : (Supply.serve limit requests supply).2.refused = false) :
    supply.refused = false ∧ (Supply.serve limit requests supply).1 = none ∧
      ∀ request ∈ requests, request.size ≤ limit := by
  induction requests generalizing supply with
  | nil => simpa [Supply.serve] using granted
  | cons request rest ih =>
    simp only [Supply.serve] at granted ⊢
    split at granted
    next answered =>
      obtain ⟨kept, served, within⟩ := ih _ granted
      simp only [Supply.answer, Bool.or_eq_false_iff, Bool.not_eq_false'] at kept
      rw [if_pos answered]
      refine ⟨kept.1, served, ?_⟩
      simp_all
    next => simp_all [Supply.answer]

/-- A success under any supplier is the success of the unhindered computation. -/
theorem run_ok {limit : Nat} {program : FailStop ε α} {supply : Supply} {value : α}
    (succeeded : (program.run limit supply).1 = .ok value) : program.result = .ok value := by
  simp only [run] at succeeded
  split at succeeded
  · exact succeeded
  · cases succeeded

/-- A run in which nothing was refused gives the unhindered result, and every
request it made was within the supplier's limit. -/
theorem run_granted {limit : Nat} {program : FailStop ε α} {supply : Supply}
    (granted : (program.run limit supply).2.refused = false) :
    (program.run limit supply).1 = program.result ∧ ∀ request ∈ program.requests, request.size ≤ limit := by
  have served := serve_refused limit program.requests supply
  simp only [run] at granted ⊢
  split at granted <;> simp_all

/-- Refusals are never forgotten. -/
theorem run_keeps {limit : Nat} {program : FailStop ε α} {supply : Supply}
    (granted : (program.run limit supply).2.refused = false) : supply.refused = false := by
  have served := serve_refused limit program.requests supply
  simp only [run] at granted
  split at granted <;> simp_all

/-- A run that does not give the unhindered result ends with the error of a refused request. -/
theorem run_stopped (limit : Nat) (program : FailStop ε α) (supply : Supply) :
    (program.run limit supply).1 = program.result ∨
      ∃ request ∈ program.requests, (program.run limit supply).1 = .error request.refusal := by
  have served (requests : List (Request ε)) (supply : Supply) {error : ε}
      (stopped : (Supply.serve limit requests supply).1 = some error) : ∃ request ∈ requests, error = request.refusal := by
    induction requests generalizing supply with
    | nil => cases stopped
    | cons request rest ih =>
      simp only [Supply.serve] at stopped
      split at stopped
      · obtain ⟨refused, later, same⟩ := ih _ stopped
        exact ⟨refused, List.mem_cons_of_mem _ later, same⟩
      · exact ⟨request, List.mem_cons_self, (Option.some.inj stopped).symm⟩
  have stops := @served program.requests supply
  simp only [run]
  generalize Supply.serve limit program.requests supply = outcome at stops ⊢
  obtain ⟨refusal, later⟩ := outcome
  cases refusal with
  | none => exact Or.inl rfl
  | some error =>
    obtain ⟨request, made, rfl⟩ := stops rfl
    exact Or.inr ⟨request, made, rfl⟩

/-- Every request of the program is an allowed one. -/
def Asks (allowed : Request ε → Prop) (program : FailStop ε α) : Prop := ∀ request ∈ program.requests, allowed request

section Asks
variable {allowed : Request ε → Prop}

theorem asks_pure (value : α) : Asks allowed (pure value : FailStop ε α) := by
  intro request made
  cases made

theorem asks_fail (error : ε) : Asks allowed (fail error : FailStop ε α) := by
  intro request made
  cases made

theorem asks_request {size : Nat} {refusal : ε} (fine : allowed ⟨size, refusal⟩) : Asks allowed (request size refusal) := by
  intro made member
  rw [List.mem_singleton.mp member]
  exact fine

theorem asks_failIf {condition : Prop} [Decidable condition] {error : ε} : Asks allowed (failIf condition error) := by
  unfold failIf
  split
  · exact asks_fail error
  · exact asks_pure ()

/-- The second program counts only for the values that the first can have. -/
theorem asks_bind {first : FailStop ε α} {next : α → FailStop ε β} (start : Asks allowed first)
    (rest : ∀ value, first.result = .ok value → Asks allowed (next value)) : Asks allowed (first >>= next) := by
  change ∀ request ∈ (match first.result with
    | .ok value => FailStop.mk (first.requests ++ (next value).requests) (next value).result
    | .error error => ⟨first.requests, .error error⟩).requests, allowed request
  cases outcome : first.result with
  | error error => exact start
  | ok value =>
    intro request made
    rcases List.mem_append.mp made with early | late
    · exact start request early
    · exact rest value outcome request late

theorem asks_forM {items : List α} {check : α → FailStop ε PUnit} (each : ∀ item ∈ items, Asks allowed (check item)) :
    Asks allowed (forM items check) := by
  induction items with
  | nil => exact asks_pure ()
  | cons item rest ih =>
    rw [List.forM_cons]
    exact asks_bind (each item (by simp)) fun _ _ => ih fun item member => each item (by simp [member])

end Asks

/-- Every request of the program is within the limit. -/
def Within (limit : Nat) (program : FailStop ε α) : Prop := ∀ request ∈ program.requests, request.size ≤ limit

variable {limit : Nat}

theorem within_pure (value : α) : Within limit (pure value : FailStop ε α) := asks_pure value

theorem within_fail (error : ε) : Within limit (fail error : FailStop ε α) := asks_fail error

theorem within_request {size : Nat} {refusal : ε} (small : size ≤ limit) : Within limit (request size refusal) :=
  asks_request small

theorem within_failIf {condition : Prop} [Decidable condition] {error : ε} : Within limit (failIf condition error) :=
  asks_failIf

theorem within_bind {first : FailStop ε α} {next : α → FailStop ε β} (start : Within limit first)
    (rest : ∀ value, first.result = .ok value → Within limit (next value)) : Within limit (first >>= next) :=
  asks_bind start rest

theorem within_forM {items : List α} {check : α → FailStop ε PUnit} (each : ∀ item ∈ items, Within limit (check item)) :
    Within limit (forM items check) := asks_forM each

end FailStop
end ProcessChain.Lib
