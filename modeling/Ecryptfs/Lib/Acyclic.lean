import Mathlib.Data.Fintype.Card
import Mathlib.Data.Set.Finite.Basic
import Mathlib.Logic.Relation
import Mathlib.Tactic

/-!
# Relations without cycles

Where finitely many points are reached from a point and no way leads back to where it began, all ways
from the point come to an end.  They still do so after edges to a new end have been added, as long as
none of these begins behind the end itself.
-/

namespace Acyclic

open Relation

variable {α : Type*} {r r' : α → α → Prop} {a e : α}

/-- Finitely many points are reached from `a`, and none of them is reached from itself. -/
structure FiniteAcyclic (r : α → α → Prop) (a : α) : Prop where
  finite : {b | ReflTransGen r a b}.Finite
  acyclic : ∀ b, ReflTransGen r a b → ¬ TransGen r b b

/-- All ways from the point end. -/
theorem FiniteAcyclic.acc (all : FiniteAcyclic r a) : Acc (flip r) a := by
  have : Finite {b | ReflTransGen r a b} := all.finite
  let later : {b | ReflTransGen r a b} → {b | ReflTransGen r a b} → Prop :=
    fun y x => TransGen r x.1 y.1
  have : IsTrans _ later := ⟨fun _ _ _ first second => second.trans first⟩
  have : Std.Irrefl later := ⟨fun b => all.acyclic b.1 b.2⟩
  have wf : WellFounded later := Finite.wellFounded_of_trans_of_irrefl later
  have ends : ∀ b : {b | ReflTransGen r a b}, Acc (flip r) b.1 := by
    intro b
    induction b using wf.induction with
    | _ b ih => exact ⟨_, fun c leads => ih ⟨c, b.2.tail leads⟩ (.single leads)⟩
  exact ends ⟨a, .refl⟩

/-- A number that grows along every edge rules cycles out. -/
theorem not_cyclic_of_rank (rank : α → ℕ) (up : ∀ x y, r x y → rank x < rank y) (b : α) :
    ¬ TransGen r b b := by
  have grows : ∀ x y, TransGen r x y → rank x < rank y := by
    intro x y way
    induction way with
    | single leads => exact up _ _ leads
    | tail _ leads ih => exact ih.trans (up _ _ leads)
  exact fun cycle => lt_irrefl _ (grows b b cycle)

/-- Where no edge is added behind the new end, all ways still end. -/
theorem acc_behind (own : ∀ x y, ReflTransGen r e x → r' x y → r x y) (ends : Acc (flip r) a)
    (behind : ReflTransGen r e a) : Acc (flip r') a := by
  induction ends with
  | intro x _ ih =>
    refine ⟨_, fun y leads => ?_⟩
    have kept : r x y := own x y behind leads
    exact ih y kept (behind.tail kept)

/-- Edges to `e` are added, but none behind it. -/
theorem acc_of_added (added : ∀ x y, r' x y → r x y ∨ y = e)
    (own : ∀ x y, ReflTransGen r e x → r' x y → r x y) (endsE : Acc (flip r) e)
    (ends : Acc (flip r) a) : Acc (flip r') a := by
  induction ends with
  | intro x _ ih =>
    refine ⟨_, fun y leads => ?_⟩
    rcases added x y leads with kept | rfl
    · exact ih y kept
    · exact acc_behind own endsE .refl

end Acyclic
