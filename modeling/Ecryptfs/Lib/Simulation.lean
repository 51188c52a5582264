import Mathlib.Data.List.Basic

/-!
# Machines that answer

A machine takes an input in each step and gives an output.  If a relation between the states of two machines
is kept by every step on the inputs that are allowed, and the outputs of such steps are the same, then both
machines answer a whole run alike.
-/

namespace Simulation

variable {σ τ ι ο : Type*}

/-- The state after a run, and the outputs in order. -/
def runThrough (step : σ → ι → σ × ο) (s : σ) : List ι → σ × List ο
  | [] => (s, [])
  | i :: is => ((runThrough step (step s i).1 is).1, (step s i).2 :: (runThrough step (step s i).1 is).2)

theorem runThrough_cons (step : σ → ι → σ × ο) (s : σ) (i : ι) (is : List ι) : runThrough step s (i :: is) =
    ((runThrough step (step s i).1 is).1, (step s i).2 :: (runThrough step (step s i).1 is).2) := rfl

/-- One step of the second machine for every step of the first, with the same answer. -/
def Simulates (R : σ → τ → Prop) (allowed : ι → Prop) (step : σ → ι → σ × ο) (step' : τ → ι → τ × ο) :
    Prop :=
  ∀ s t i, R s t → allowed i → R (step s i).1 (step' t i).1 ∧ (step s i).2 = (step' t i).2

/-- Related states stay related along a run, and the answers are the same. -/
theorem Simulates.run {R : σ → τ → Prop} {allowed : ι → Prop} {step : σ → ι → σ × ο}
    {step' : τ → ι → τ × ο} (simulates : Simulates R allowed step step') {s : σ} {t : τ} (related : R s t)
    {is : List ι} (inputs : ∀ i ∈ is, allowed i) :
    R (runThrough step s is).1 (runThrough step' t is).1 ∧
      (runThrough step s is).2 = (runThrough step' t is).2 := by
  induction is generalizing s t with
  | nil => exact ⟨related, rfl⟩
  | cons i is ih =>
    obtain ⟨related', same⟩ := simulates s t i related (inputs i List.mem_cons_self)
    obtain ⟨related'', answers⟩ := ih related' fun j among => inputs j (List.mem_cons_of_mem i among)
    exact ⟨related'', by rw [runThrough_cons, runThrough_cons, same, answers]⟩

end Simulation
