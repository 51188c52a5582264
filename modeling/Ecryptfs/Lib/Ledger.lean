import Mathlib.Tactic

/-!
# Ledgers of allocations

A ledger lists what is handed out and what is released, by handles.  It is sound if whatever is released
is live at that time: then no handle is released twice, and a ledger that is not sound does not become
so by what follows.
-/

namespace Ledger

variable {η : Type*}

/-- An entry of a ledger. -/
inductive Entry (η : Type*) where
  | alloc (handle : η)
  | free (handle : η)
  deriving DecidableEq

open Entry

variable {l l' : List (Entry η)} {h k : η} {e : Entry η}

/-- The handle that an entry releases. -/
def Entry.freed : Entry η → Option η
  | alloc _ => none
  | free h => some h

/-- A handle that was handed out and is not released. -/
def Live (l : List (Entry η)) (h : η) : Prop := alloc h ∈ l ∧ free h ∉ l

instance [DecidableEq η] (l : List (Entry η)) (h : η) : Decidable (Live l h) := by
  unfold Live
  infer_instance

/-- Whatever is released is live. -/
def Sound (l : List (Entry η)) : Prop := ∀ pre post h, l = pre ++ free h :: post → Live pre h

theorem sound_nil : Sound ([] : List (Entry η)) := by
  intro pre post h split
  cases pre <;> cases split

/-- Soundness is lost for good. -/
theorem Sound.of_append (sound : Sound (l ++ l')) : Sound l := by
  intro pre post h split
  exact sound pre (post ++ l') h (by rw [split, List.append_assoc, List.cons_append])

theorem Sound.of_prefix (sound : Sound l') (before : l <+: l') : Sound l := by
  obtain ⟨rest, rfl⟩ := before
  exact sound.of_append

theorem sound_concat : Sound (l ++ [e]) ↔ Sound l ∧ ∀ h, e = free h → Live l h := by
  constructor
  · intro sound
    refine ⟨sound.of_append, ?_⟩
    rintro h rfl
    exact sound l [] h rfl
  · rintro ⟨sound, last⟩ pre post h split
    rcases List.eq_nil_or_concat post with rfl | ⟨post', e', rfl⟩
    · obtain ⟨rfl, same⟩ := List.append_singleton_inj.mp split
      exact last h same
    · rw [List.concat_eq_append, ← List.cons_append, ← List.append_assoc] at split
      obtain ⟨rfl, -⟩ := List.append_singleton_inj.mp split
      exact sound pre post' h rfl

@[simp] theorem sound_alloc : Sound (l ++ [alloc h]) ↔ Sound l := by
  rw [sound_concat]
  exact and_iff_left fun k same => nomatch same

@[simp] theorem sound_free : Sound (l ++ [free h]) ↔ Sound l ∧ Live l h := by
  rw [sound_concat]
  constructor
  · exact fun both => ⟨both.1, both.2 h rfl⟩
  · rintro ⟨sound, live⟩
    exact ⟨sound, fun k same => Entry.free.inj same ▸ live⟩

/-- What is released was handed out. -/
theorem Sound.alloc_of_free (sound : Sound l) (freed : free h ∈ l) : alloc h ∈ l := by
  obtain ⟨pre, post, rfl⟩ := List.append_of_mem freed
  exact List.mem_append_left _ (sound pre post h rfl).1

/-- A handle is released at most once. -/
theorem Sound.count_free_le [DecidableEq η] (sound : Sound l) (h : η) : l.count (free h) ≤ 1 := by
  induction l using List.reverseRecOn with
  | nil => exact Nat.zero_le 1
  | append_singleton l e ih =>
    rw [sound_concat] at sound
    rw [List.count_append, List.count_singleton]
    split_ifs with same
    · have absent := (sound.2 h (eq_of_beq same)).2
      rw [List.count_eq_zero.mpr absent]
    · exact ih sound.1

/-- What is released twice was not live the second time. -/
theorem not_sound_of_freed (freed : free h ∈ l) : ¬ Sound (l ++ [free h]) := by
  rw [sound_free]
  exact fun both => both.2.2 freed

end Ledger
