import Mathlib.Data.Nat.Digits.Lemmas
import Mathlib.Data.Nat.Size
import Mathlib.Tactic

/-!
# Numbers as big-endian byte strings

`toBytes` is the shortest byte string of a number, most significant byte first, and `ofBytes` the
number with given bytes.  Bytes whose top bit is set are the shortest string of their number, and the
number has eight bits for each of them.
-/

namespace BigEndian

/-- The bytes of a number, most significant first, without leading zeros. -/
def toBytes (n : ℕ) : List UInt8 := (Nat.digits 256 n).reverse.map UInt8.ofNat

/-- The number with the given bytes, most significant first. -/
def ofBytes (bs : List UInt8) : ℕ := Nat.ofDigits 256 (bs.reverse.map UInt8.toNat)

theorem ofBytes_lt (bs : List UInt8) : ofBytes bs < 256 ^ bs.length := by
  have below : ∀ d ∈ bs.reverse.map UInt8.toNat, d < 256 := by
    intro d among
    obtain ⟨b, -, rfl⟩ := List.mem_map.mp among
    exact b.toNat_lt
  have bound := Nat.ofDigits_lt_base_pow_length (by norm_num) below
  rwa [List.length_map, List.length_reverse] at bound

theorem ofBytes_cons (b : UInt8) (bs : List UInt8) :
    ofBytes (b :: bs) = b.toNat * 256 ^ bs.length + ofBytes bs := by
  unfold ofBytes
  rw [List.reverse_cons, List.map_append, Nat.ofDigits_append, List.length_map, List.length_reverse,
    List.map_singleton, Nat.ofDigits_singleton]
  ring

/-- Bytes without a leading zero are those of their number. -/
theorem toBytes_ofBytes {b : UInt8} (nonzero : b ≠ 0) (bs : List UInt8) :
    toBytes (ofBytes (b :: bs)) = b :: bs := by
  have below : ∀ d ∈ (b :: bs).reverse.map UInt8.toNat, d < 256 := by
    intro d among
    obtain ⟨c, -, rfl⟩ := List.mem_map.mp among
    exact c.toNat_lt
  have last : ∀ some_ : (b :: bs).reverse.map UInt8.toNat ≠ [],
      ((b :: bs).reverse.map UInt8.toNat).getLast some_ ≠ 0 := by
    intro some_ zero
    simp only [List.reverse_cons, List.map_append, List.map_cons, List.map_nil,
      List.getLast_append_singleton] at zero
    exact nonzero (UInt8.toNat_inj.mp zero)
  rw [toBytes, ofBytes, Nat.digits_ofDigits 256 (by norm_num) _ below last, ← List.map_reverse,
    List.reverse_reverse, List.map_map]
  exact List.map_id'' (fun c => UInt8.ofNat_toNat) (b :: bs)

/-- A number whose top byte has its top bit set. -/
theorem size_ofBytes {b : UInt8} (top : 128 ≤ b) (bs : List UInt8) :
    Nat.size (ofBytes (b :: bs)) = 8 * (bs.length + 1) := by
  have topNat : 128 ≤ b.toNat := UInt8.le_iff_toNat_le.mp top
  refine le_antisymm (Nat.size_le.mpr ?_) (Nat.lt_size.mpr ?_)
  · have bound := ofBytes_lt (b :: bs)
    rwa [show 256 = 2 ^ 8 by norm_num, ← pow_mul] at bound
  · calc 2 ^ (8 * bs.length + 7) = 128 * 256 ^ bs.length := by
          rw [pow_add, pow_mul]
          norm_num
          ring
      _ ≤ b.toNat * 256 ^ bs.length := Nat.mul_le_mul_right _ topNat
      _ ≤ ofBytes (b :: bs) := by
          rw [ofBytes_cons]
          exact Nat.le_add_right _ _

/-- A number has as many bytes as its bits fill. -/
theorem length_toBytes_eq (n : ℕ) : (toBytes n).length = (Nat.size n + 7) / 8 := by
  rw [toBytes, List.length_map, List.length_reverse]
  refine le_antisymm ?_ ?_
  · have below : n < 256 ^ ((Nat.size n + 7) / 8) := by
      rw [show 256 = 2 ^ 8 by norm_num, ← pow_mul]
      exact Nat.size_le.mp (by omega)
    exact (Nat.digits_length_le_iff (by norm_num) n).mpr below
  · have below := Nat.lt_base_pow_length_digits (b := 256) (m := n) (by norm_num)
    rw [show 256 = 2 ^ 8 by norm_num, ← pow_mul] at below
    have bits := Nat.size_le.mpr below
    norm_num at bits ⊢
    omega

end BigEndian
