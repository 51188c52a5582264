import Mathlib.Data.Set.Insert
import Mathlib.Tactic

/-!
# Adding what is not covered

Elements are added to a set one after the other, and an element that something in the set covers is left
out.  With a reflexive and transitive relation, nothing is lost exactly when every element that is
covered by an earlier one is itself an earlier one.
-/

namespace Covering

variable {α : Type*} (covers : α → α → Prop)

open Classical in
/-- The set with `v`, unless something in it covers `v`. -/
noncomputable def add (T : Set α) (v : α) : Set α := if ∃ w ∈ T, covers v w then T else insert v T

/-- Every element that is covered by an earlier one is an earlier one. -/
def Harmless (K : Set α) (l : List α) : Prop :=
  ∀ front v back, l = front ++ v :: back → (∃ w, (w ∈ front ∨ w ∈ K) ∧ covers v w) →
    v ∈ front ∨ v ∈ K

variable {covers} {T K : Set α} {v w : α} {l : List α}

theorem add_of_covered (covered : ∃ w ∈ T, covers v w) : add covers T v = T := if_pos covered

theorem add_of_not (free : ¬∃ w ∈ T, covers v w) : add covers T v = insert v T := if_neg free

theorem subset_add : T ⊆ add covers T v := by
  unfold add
  split_ifs
  · exact subset_rfl
  · exact Set.subset_insert v T

theorem subset_foldl (T : Set α) (l : List α) : T ⊆ l.foldl (add covers) T := by
  induction l generalizing T with
  | nil => exact subset_rfl
  | cons v l ih => exact subset_add.trans (ih (add covers T v))

theorem add_subset : add covers T v ⊆ insert v T := by
  unfold add
  split_ifs
  · exact Set.subset_insert v T
  · exact subset_rfl

/-- Nothing else is added. -/
theorem foldl_subset (T : Set α) (l : List α) : l.foldl (add covers) T ⊆ T ∪ {v | v ∈ l} := by
  induction l generalizing T with
  | nil => exact Set.subset_union_left
  | cons v l ih =>
    intro u among
    rcases ih (add covers T v) among with old | later
    · rcases add_subset old with rfl | old
      · exact .inr List.mem_cons_self
      · exact .inl old
    · exact .inr (List.mem_cons_of_mem v later)

/-- Whatever was in the set or was to be added is covered in the end. -/
theorem covered_foldl (refl : ∀ v, covers v v) (among : w ∈ l ∨ w ∈ T) :
    ∃ u ∈ l.foldl (add covers) T, covers w u := by
  induction l generalizing T with
  | nil => exact ⟨w, among.resolve_left List.not_mem_nil, refl w⟩
  | cons v l ih =>
    rw [List.mem_cons] at among
    rcases among with (rfl | later) | old
    · by_cases covered : ∃ u ∈ T, covers w u
      · obtain ⟨u, old, covers_⟩ := covered
        exact ⟨u, subset_foldl T (w :: l) old, covers_⟩
      · refine ih (.inr ?_)
        rw [add_of_not covered]
        exact Set.mem_insert w T
    · exact ih (.inl later)
    · exact ih (.inr (subset_add old))

/-- What is covered and not in the set is never added. -/
theorem notMem_foldl (covered : ∃ w ∈ T, covers v w) (missing : v ∉ T) (l : List α) :
    v ∉ l.foldl (add covers) T := by
  induction l generalizing T with
  | nil => exact missing
  | cons u l ih =>
    refine ih ?_ ?_
    · obtain ⟨w, old, covers_⟩ := covered
      exact ⟨w, subset_add old, covers_⟩
    · intro among
      by_cases covered' : ∃ w ∈ T, covers u w
      · rw [add_of_covered covered'] at among
        exact missing among
      · rw [add_of_not covered'] at among
        rcases among with rfl | old
        · exact covered' covered
        · exact missing old

/-- **When nothing is lost.** -/
theorem foldl_eq_iff (refl : ∀ v, covers v v)
    (trans : ∀ {u v w}, covers u v → covers v w → covers u w) (K : Set α) (l : List α) :
    l.foldl (add covers) K = K ∪ {v | v ∈ l} ↔ Harmless covers K l := by
  constructor
  · rintro whole front v back rfl ⟨w, among, covers_⟩
    by_contra new
    obtain ⟨u, inFront, covers'⟩ := covered_foldl refl among
    have missing : v ∉ front.foldl (add covers) K := fun old =>
      new ((foldl_subset K front old).symm)
    have lost := notMem_foldl ⟨u, inFront, trans covers_ covers'⟩ missing (v :: back)
    rw [← List.foldl_append, whole] at lost
    exact lost (.inr (List.mem_append_right front List.mem_cons_self))
  · intro harmless
    have all : ∀ front back, l = front ++ back →
        front.foldl (add covers) K = K ∪ {v | v ∈ front} := by
      intro front
      induction front using List.reverseRecOn with
      | nil => intro back _; simp
      | append_singleton front v ih =>
        intro back split
        rw [List.append_assoc, List.singleton_append] at split
        rw [List.foldl_append, ih (v :: back) split, List.foldl_cons, List.foldl_nil]
        have longer : K ∪ {u | u ∈ front ++ [v]} = insert v (K ∪ {u | u ∈ front}) := by
          ext u
          simp only [Set.mem_union, Set.mem_ofPred_eq, List.mem_append, List.mem_singleton,
            Set.mem_insert_iff]
          tauto
        rw [longer]
        by_cases covered : ∃ w ∈ K ∪ {u | u ∈ front}, covers v w
        · rw [add_of_covered covered]
          obtain ⟨w, among, covers_⟩ := covered
          have old : v ∈ K ∪ {u | u ∈ front} :=
            (harmless front v back split ⟨w, among.symm, covers_⟩).symm
          exact (Set.insert_eq_of_mem old).symm
        · exact add_of_not covered
    exact all l [] (List.append_nil l).symm

end Covering
