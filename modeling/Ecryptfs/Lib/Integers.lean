import Ecryptfs.Lib.Words

/-!
# Integers of any width in memory

An integer of `k` bytes lies in memory in the order of the host.  `load` and `store` are the two
sides of copying it, and `toNetwork` brings what a host has loaded into network (big-endian) order,
so that the number that is meant by big-endian bytes comes out on every host.
-/

namespace Integers

open Words (ByteOrder ofDigits)

/-- The `k` lowest bytes of `n`, least significant first. -/
def digits : ℕ → ℕ → List UInt8
  | 0, _ => []
  | k + 1, n => UInt8.ofNat n :: digits k (n / 256)

@[simp] theorem length_digits (k n : ℕ) : (digits k n).length = k := by
  induction k generalizing n with
  | zero => rfl
  | succ k ih => rw [digits, List.length_cons, ih]

theorem ofDigits_digits (k n : ℕ) : ofDigits (digits k n) = n % 256 ^ k := by
  induction k generalizing n with
  | zero => rw [pow_zero, Nat.mod_one]; rfl
  | succ k ih =>
    have low : (UInt8.ofNat n).toNat = n % 256 := UInt8.toNat_ofNat'
    rw [digits, ofDigits, ih, low, pow_succ', Nat.mod_mul]

theorem digits_ofDigits (bs : List UInt8) : digits bs.length (ofDigits bs) = bs := by
  induction bs with
  | nil => rfl
  | cons b bs ih =>
    have low : UInt8.ofNat (b.toNat + 256 * ofDigits bs) = b := by
      rw [← UInt8.toNat_inj, UInt8.toNat_ofNat', Nat.add_mul_mod_self_left,
        Nat.mod_eq_of_lt b.toNat_lt]
    have high : (b.toNat + 256 * ofDigits bs) / 256 = ofDigits bs := by
      rw [Nat.add_mul_div_left _ _ (by norm_num), Nat.div_eq_of_lt b.toNat_lt, Nat.zero_add]
    rw [List.length_cons, ofDigits, digits, low, high, ih]

theorem ofDigits_lt (bs : List UInt8) : ofDigits bs < 256 ^ bs.length := by
  have whole := ofDigits_digits bs.length (ofDigits bs)
  rw [digits_ofDigits] at whole
  rw [whole]
  exact Nat.mod_lt _ (pow_pos (by norm_num) _)

/-- The bits of a number are those of its bytes. -/
theorem testBit_ofDigits (bs : List UInt8) (i : ℕ) :
    (ofDigits bs).testBit i = (bs.getD (i / 8) 0).toNat.testBit (i % 8) := by
  induction bs generalizing i with
  | nil => simp [ofDigits]
  | cons b bs ih =>
    rw [ofDigits, add_comm, show 256 = 2 ^ 8 by norm_num, Nat.testBit_two_pow_mul_add _ b.toNat_lt]
    split_ifs with low
    · rw [Nat.div_eq_of_lt low, Nat.mod_eq_of_lt low]
      rfl
    · obtain ⟨j, rfl⟩ := Nat.exists_eq_add_of_le (not_lt.mp low)
      rw [ih, Nat.add_sub_cancel_left, Nat.add_div_left _ (by norm_num), Nat.add_mod_left]
      rfl

/-- The number that a host loads from the given bytes. -/
def load : ByteOrder → List UInt8 → ℕ
  | .little, bs => ofDigits bs
  | .big, bs => ofDigits bs.reverse

/-- The `k` bytes in which a host stores `n`. -/
def store : ByteOrder → ℕ → ℕ → List UInt8
  | .little, k, n => digits k n
  | .big, k, n => (digits k n).reverse

@[simp] theorem length_store (o : ByteOrder) (k n : ℕ) : (store o k n).length = k := by
  cases o
  · exact length_digits k n
  · rw [store, List.length_reverse, length_digits]

theorem load_lt (o : ByteOrder) (bs : List UInt8) : load o bs < 256 ^ bs.length := by
  cases o
  · exact ofDigits_lt bs
  · rw [← List.length_reverse]
    exact ofDigits_lt bs.reverse

/-- Loading what was stored. -/
theorem load_store (o : ByteOrder) (k n : ℕ) : load o (store o k n) = n % 256 ^ k := by
  cases o
  · exact ofDigits_digits k n
  · rw [load, store, List.reverse_reverse, ofDigits_digits]

/-- The integer of `k` bytes in network order, from the one the host sees. -/
def toNetwork : ByteOrder → ℕ → ℕ → ℕ
  | .little, k, n => load .big (store .little k n)
  | .big, _, n => n

/-- **Network order.**  What a host loads from big-endian bytes and brings into network order is the
number that the bytes mean. -/
theorem toNetwork_load (o : ByteOrder) (bs : List UInt8) :
    toNetwork o bs.length (load o bs) = load .big bs := by
  cases o
  · rw [toNetwork, load, store, digits_ofDigits]
  · rfl

/-! ## The integers of 32 bits -/

theorem words_load (o : ByteOrder) {bs : List UInt8} (four : bs.length = 4) :
    Words.load o bs = UInt32.ofNat (load o bs) := by
  have all : bs.take 4 = bs := List.take_of_length_le four.le
  cases o
  · rw [Words.load, all, load]
  · rw [Words.load, all, load]

theorem words_toNetwork_load (o : ByteOrder) {bs : List UInt8} (four : bs.length = 4) :
    Words.toNetwork o (Words.load o bs) = UInt32.ofNat (load .big bs) := by
  cases o
  · have same : Words.store .little (Words.load .little bs) = bs := Words.store_load .little four
    rw [Words.toNetwork, Words.swap, same, words_load .big four]
  · exact words_load .big four

end Integers
