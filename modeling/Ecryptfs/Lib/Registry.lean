import Mathlib.Tactic

/-!
# Registries

A registry maps keys to values, and a value is registered only under a key that is free.  What is
registered once stays; a second registration under the same key changes nothing; and the order of
registrations matters only when they are for the same key.
-/

namespace Registry

variable {α β : Type*} [DecidableEq α]

/-- The registry `m` with the value `b` under the key `a`, if the key is free. -/
def register (a : α) (b : β) (m : α → Option β) : α → Option β :=
  if m a = none then Function.update m a (some b) else m

variable {m : α → Option β} {a a' : α} {b b' : β}

theorem register_of_free (free : m a = none) : register a b m = Function.update m a (some b) :=
  if_pos free

theorem register_of_taken (taken : m a ≠ none) : register a b m = m := if_neg taken

/-- The other keys are as before. -/
theorem register_of_ne (other : a' ≠ a) : register a b m a' = m a' := by
  unfold register
  split_ifs
  · exact Function.update_of_ne other _ _
  · rfl

theorem register_taken : register a b m a ≠ none := by
  unfold register
  split_ifs with free
  · rw [Function.update_self]
    exact Option.some_ne_none b
  · exact free

/-- What is registered stays. -/
theorem register_keeps {c : β} (present : m a' = some c) : register a b m a' = some c := by
  by_cases same : a' = a
  · subst same
    rw [register_of_taken (by simp [present]), present]
  · rw [register_of_ne same, present]

/-- A key that is taken stays taken. -/
theorem taken_register (taken : m a' ≠ none) : register a b m a' ≠ none := by
  obtain ⟨c, present⟩ := Option.ne_none_iff_exists'.mp taken
  rw [register_keeps present]
  exact Option.some_ne_none c

/-- Registrations under different keys can change places. -/
theorem register_comm (differ : a ≠ a') :
    register a b (register a' b' m) = register a' b' (register a b m) := by
  by_cases free : m a = none
  · by_cases free' : m a' = none
    · rw [register_of_free free', register_of_free free, register_of_free, register_of_free,
        Function.update_comm differ.symm]
      · rw [Function.update_of_ne differ.symm, free']
      · rw [Function.update_of_ne differ, free]
    · rw [register_of_taken free', register_of_taken (taken_register free')]
  · rw [register_of_taken free, register_of_taken (taken_register free)]

end Registry
