import Mathlib.Computability.StateTransition
import Mathlib.Tactic

/-!
# Runs of deterministic machines

Rules for machines `f : σ → Option σ` beyond those of `StateTransition`: an invariant holds of all
that is reached, a measure that decreases along every step makes the machine terminate, and a set of
states from which the machine always comes back to the set makes it run forever.  `after` counts the
steps of a run.
-/

namespace Machine

open StateTransition

variable {σ : Type*} {f : σ → Option σ}

/-- The machine stops when it is started in `a`. -/
def Terminates (f : σ → Option σ) (a : σ) : Prop := ∃ b, Reaches f a b ∧ f b = none

theorem terminates_iff_dom {a : σ} : Terminates f a ↔ (eval f a).Dom := by
  rw [Part.dom_iff_mem]
  exact exists_congr fun _ => mem_eval.symm

/-- A machine that stops also stops from every state on its way. -/
theorem Terminates.of_reaches {a b : σ} (terminates : Terminates f a) (reached : Reaches f a b) :
    Terminates f b := by
  rw [terminates_iff_dom] at terminates ⊢
  rwa [← reaches_eval reached]

/-- What is reached is the state itself or reached from the next one. -/
theorem reached_of_step {a b c : σ} (reached : Reaches f a c) (stepped : f a = some b) :
    c = a ∨ Reaches f b c := by
  rcases Relation.ReflTransGen.cases_head reached with same | ⟨d, stepped', rest⟩
  · exact .inl same.symm
  · rw [Option.mem_unique (Option.mem_def.mpr stepped) stepped']
    exact .inr rest

/-- A machine stops in one state only. -/
theorem final_unique {a b c : σ} (reached : Reaches f a b) (final : f b = none)
    (reached' : Reaches f a c) (final' : f c = none) : b = c :=
  Part.mem_unique (mem_eval.mpr ⟨reached, final⟩) (mem_eval.mpr ⟨reached', final'⟩)

/-- An invariant of the steps holds of everything reached. -/
theorem invariant {I : σ → Prop} (step : ∀ a b, I a → f a = some b → I b) {a b : σ} (start : I a)
    (reached : Reaches f a b) : I b := by
  induction reached with
  | refl => exact start
  | tail _ stepped ih => exact step _ _ ih stepped

/-- A measure in a well-founded order that decreases along the steps from states of an invariant. -/
theorem terminates_of_measure {α : Type*} {lt : α → α → Prop} (wf : WellFounded lt) (μ : σ → α)
    {I : σ → Prop} (step : ∀ a b, I a → f a = some b → I b ∧ lt (μ b) (μ a)) {a : σ} (start : I a) :
    Terminates f a := by
  induction h : μ a using wf.induction generalizing a with
  | _ x ih =>
    subst h
    rcases next : f a with _ | b
    · exact ⟨a, .refl, next⟩
    · obtain ⟨inv, less⟩ := step a b start next
      obtain ⟨c, reached, final⟩ := ih (μ b) less inv rfl
      exact ⟨c, .head next reached, final⟩

/-- A machine that always comes back to a set of states never stops in it. -/
theorem not_terminates_of_trap {T : σ → Prop} (back : ∀ a, T a → ∃ b, Reaches₁ f a b ∧ T b) {a : σ}
    (start : T a) : ¬ Terminates f a := by
  rintro ⟨c, reached, final⟩
  -- along the run to `c` there is always a later state of the set
  have later : ∃ b, Reaches f c b ∧ T b := by
    refine invariant (I := fun d => ∃ b, Reaches f d b ∧ T b) ?_ ⟨a, .refl, start⟩ reached
    rintro d e ⟨b, fromD, inT⟩ stepped
    rcases reached_of_step fromD stepped with rfl | rest
    · obtain ⟨b, once, inT⟩ := back _ inT
      exact ⟨b, reaches₁_fwd once stepped, inT⟩
    · exact ⟨b, rest, inT⟩
  obtain ⟨b, fromC, inT⟩ := later
  obtain ⟨d, once, -⟩ := back b inT
  have go : Reaches₁ f c d := Relation.TransGen.trans_right fromC once
  obtain ⟨e, stepped, -⟩ := Relation.TransGen.head'_iff.mp go
  rw [Option.mem_def, final] at stepped
  cases stepped

/-! ## A number of steps -/

/-- Where the machine stands after a number of steps. -/
def after (f : σ → Option σ) : ℕ → σ → Option σ
  | 0, a => some a
  | k + 1, a => (f a).bind (after f k)

theorem after_add (j k : ℕ) (a : σ) : after f (j + k) a = (after f j a).bind (after f k) := by
  induction j generalizing a with
  | zero => rw [Nat.zero_add, after, Option.bind_some]
  | succ j ih =>
    rw [Nat.succ_add, after, after, Option.bind_assoc]
    exact Option.bind_congr fun b _ => ih b

theorem after_one (a : σ) : after f 1 a = f a := by
  rw [after]
  exact Option.bind_fun_some (f a)

end Machine
