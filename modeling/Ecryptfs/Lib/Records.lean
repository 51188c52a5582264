import Mathlib.Tactic

/-!
# Files of records

A file is the list of its bytes, and a write at an offset replaces what is there, after a gap beyond
the end has been filled.  When records of one size follow one another without anything in between, a
write at the start of a record or at the end of the file concerns this one record.
-/

namespace Records

variable {α : Type*}

/-- A file after `bytes` have been written from offset `i` on. -/
def overwrite (fill : α) (file : List α) (i : ℕ) (bytes : List α) : List α :=
  file.take i ++ List.replicate (i - file.length) fill ++ bytes ++ file.drop (i + bytes.length)

/-- The record number `k` of a file whose records have size `n`. -/
def record (n k : ℕ) (file : List α) : List α := (file.drop (n * k)).take n

/-- The record number `k` is there in full. -/
def Full (n k : ℕ) (file : List α) : Prop := n * (k + 1) ≤ file.length

theorem length_record {n k : ℕ} {file : List α} (full : Full n k file) : (record n k file).length = n := by
  unfold Full at full
  rw [Nat.mul_succ] at full
  rw [record, List.length_take, List.length_drop]
  omega

/-- In a file of whole records all that begin are there in full. -/
theorem full_iff {n k : ℕ} {file : List α} (positive : 0 < n) (whole : n ∣ file.length) :
    Full n k file ↔ n * k < file.length := by
  obtain ⟨count, length⟩ := whole
  rw [Full, length, Nat.mul_le_mul_left_iff positive, Nat.mul_lt_mul_left positive]
  exact Nat.succ_le_iff

/-- The first record, and the records of the rest. -/
theorem exists_full_iff {n : ℕ} {file : List α} {p : List α → Prop} (enough : n ≤ file.length) :
    (∃ k, Full n k file ∧ p (record n k file)) ↔
      p (file.take n) ∨ ∃ k, Full n k (file.drop n) ∧ p (record n k (file.drop n)) := by
  have shift : ∀ k, Full n (k + 1) file ↔ Full n k (file.drop n) := by
    intro k
    rw [Full, Full, List.length_drop, Nat.mul_succ n (k + 1)]
    omega
  have next : ∀ k, record n (k + 1) file = record n k (file.drop n) := by
    intro k
    rw [record, record, List.drop_drop, Nat.mul_succ, Nat.add_comm]
  constructor
  · rintro ⟨k, full, holds⟩
    cases k with
    | zero => exact .inl (by simpa [record] using holds)
    | succ k => exact .inr ⟨k, (shift k).mp full, next k ▸ holds⟩
  · rintro (holds | ⟨k, full, holds⟩)
    · exact ⟨0, by simpa [Full] using enough, by simpa [record] using holds⟩
    · exact ⟨k + 1, (shift k).mpr full, (next k).symm ▸ holds⟩

section

variable {fill : α} {file bytes : List α} {i : ℕ}

/-- A write without a gap. -/
theorem overwrite_eq (inside : i ≤ file.length) :
    overwrite fill file i bytes = file.take i ++ (bytes ++ file.drop (i + bytes.length)) := by
  rw [overwrite, Nat.sub_eq_zero_of_le inside, List.replicate_zero, List.append_nil, List.append_assoc]

/-- A write behind a known beginning. -/
theorem overwrite_append (fill : α) (a rest bytes : List α) :
    overwrite fill (a ++ rest) a.length bytes = a ++ (bytes ++ rest.drop bytes.length) := by
  rw [overwrite_eq (by rw [List.length_append]; omega), List.take_left, List.drop_append]
  simp

theorem length_overwrite (inside : i ≤ file.length) :
    (overwrite fill file i bytes).length = max file.length (i + bytes.length) := by
  rw [overwrite_eq inside, List.length_append, List.length_append, List.length_take_of_le inside,
    List.length_drop]
  omega

variable {n k : ℕ}

/-- A record written at its place is there. -/
theorem record_overwrite_self (size : bytes.length = n) (inside : n * k ≤ file.length) :
    record n k (overwrite fill file (n * k) bytes) = bytes := by
  rw [overwrite_eq inside, record, List.drop_left' (List.length_take_of_le inside),
    List.take_left' size]

/-- The other records stay. -/
theorem record_overwrite_of_ne (size : bytes.length = n) (inside : n * k ≤ file.length) {j : ℕ}
    (other : j ≠ k) : record n j (overwrite fill file (n * k) bytes) = record n j file := by
  rw [overwrite_eq inside, record, record]
  rcases Nat.lt_or_gt_of_ne other with before | after
  · -- the record lies in the part in front of the write
    have step : n * (j + 1) ≤ n * k := Nat.mul_le_mul_left n before
    rw [Nat.mul_succ] at step
    rw [List.drop_append_of_le_length (by rw [List.length_take_of_le inside]; omega),
      List.take_append_of_le_length (by rw [List.length_drop, List.length_take_of_le inside]; omega),
      List.drop_take, List.take_take, Nat.min_eq_left (by omega)]
  · have step : n * (k + 1) ≤ n * j := Nat.mul_le_mul_left n after
    rw [Nat.mul_succ] at step
    have front : (file.take (n * k) ++ bytes).length = n * k + n := by
      rw [List.length_append, List.length_take_of_le inside, size]
    rw [← List.append_assoc, List.drop_append, List.drop_of_length_le (by omega), List.nil_append,
      List.drop_drop, front, size]
    congr 2
    omega

/-- The records that are there in full after a record has been written at its place. -/
theorem full_overwrite (size : bytes.length = n) (inside : n * k ≤ file.length) (positive : 0 < n) {j : ℕ}
    (whole : n ∣ file.length) :
    Full n j (overwrite fill file (n * k) bytes) ↔ Full n j file ∨ j = k := by
  obtain ⟨count, length⟩ := whole
  rw [Full, Full, length_overwrite inside, size, ← Nat.mul_succ, length, le_max_iff,
    Nat.mul_le_mul_left_iff positive, Nat.mul_le_mul_left_iff positive]
  rw [length, Nat.mul_le_mul_left_iff positive] at inside
  omega

/-- A file of whole records stays one. -/
theorem dvd_length_overwrite (size : bytes.length = n) (inside : n * k ≤ file.length)
    (whole : n ∣ file.length) : n ∣ (overwrite fill file (n * k) bytes).length := by
  rw [length_overwrite inside, size, ← Nat.mul_succ]
  rcases max_choice file.length (n * (k + 1)) with isMax | isMax
  · rwa [isMax]
  · rw [isMax]
    exact ⟨k + 1, rfl⟩

end

end Records
