import Mathlib.Tactic

/-!
# Words in memory

A 32-bit word occupies four bytes, in the order of the host.  `store` and `load` are the two sides
of copying such a word out of and into memory, `swap` exchanges the two orders, and `toNetwork`
brings a word of the host into network (big-endian) order; it is its own inverse.
-/

namespace Words

/-- The order in which a host keeps the bytes of a word. -/
inductive ByteOrder where
  | little
  | big
  deriving DecidableEq, Repr

/-- The four bytes of `n`, least significant first. -/
def digits (n : ℕ) : List UInt8 :=
  [UInt8.ofNat n, UInt8.ofNat (n / 256), UInt8.ofNat (n / 65536), UInt8.ofNat (n / 16777216)]

/-- The number with the bytes `bs`, least significant first. -/
def ofDigits : List UInt8 → ℕ
  | [] => 0
  | b :: bs => b.toNat + 256 * ofDigits bs

theorem ofDigits_digits (n : ℕ) : ofDigits (digits n) = n % 2 ^ 32 := by
  simp only [digits, ofDigits, UInt8.toNat_ofNat', Nat.reducePow]
  omega

theorem digits_ofDigits {bs : List UInt8} (four : bs.length = 4) : digits (ofDigits bs) = bs := by
  match bs, four with
  | [a, b, c, d], _ =>
    have ha := a.toNat_lt
    have hb := b.toNat_lt
    have hc := c.toNat_lt
    have hd := d.toNat_lt
    simp only [digits, ofDigits, List.cons.injEq, and_true, ← UInt8.toNat_inj,
      UInt8.toNat_ofNat', Nat.reducePow] at *
    omega

theorem ofDigits_lt {bs : List UInt8} (four : bs.length = 4) : ofDigits bs < 2 ^ 32 := by
  rw [← digits_ofDigits four, ofDigits_digits]
  exact Nat.mod_lt _ (by norm_num)

/-- The bytes of a word in memory. -/
def store : ByteOrder → UInt32 → List UInt8
  | .little, x => digits x.toNat
  | .big, x => (digits x.toNat).reverse

/-- The word that the first four of the given bytes hold. -/
def load : ByteOrder → List UInt8 → UInt32
  | .little, bs => UInt32.ofNat (ofDigits (bs.take 4))
  | .big, bs => UInt32.ofNat (ofDigits (bs.take 4).reverse)

@[simp] theorem length_store (o : ByteOrder) (x : UInt32) : (store o x).length = 4 := by
  cases o <;> rfl

theorem ofNat_ofDigits_digits (x : UInt32) : UInt32.ofNat (ofDigits (digits x.toNat)) = x := by
  rw [ofDigits_digits, Nat.mod_eq_of_lt x.toNat_lt, UInt32.ofNat_toNat]

/-- Loading what was stored, whatever follows it in memory. -/
theorem load_store (o : ByteOrder) (x : UInt32) (rest : List UInt8) :
    load o (store o x ++ rest) = x := by
  have first : (store o x ++ rest).take 4 = store o x := by
    rw [List.take_append_of_le_length (by simp), List.take_of_length_le (by simp)]
  cases o
  · simp only [load, first]
    exact ofNat_ofDigits_digits x
  · simp only [load, first]
    rw [store, List.reverse_reverse]
    exact ofNat_ofDigits_digits x

theorem load_take (o : ByteOrder) (bs : List UInt8) : load o (bs.take 4) = load o bs := by
  cases o <;> simp only [load, List.take_take, min_self]

theorem toNat_ofNat_ofDigits {bs : List UInt8} (four : bs.length = 4) :
    (UInt32.ofNat (ofDigits bs)).toNat = ofDigits bs := by
  rw [UInt32.toNat_ofNat', Nat.mod_eq_of_lt (ofDigits_lt four)]

/-- Storing what was loaded from four bytes. -/
theorem store_load (o : ByteOrder) {bs : List UInt8} (four : bs.length = 4) :
    store o (load o bs) = bs := by
  have all : bs.take 4 = bs := List.take_of_length_le four.le
  cases o
  · simp only [load, store, all, toNat_ofNat_ofDigits four, digits_ofDigits four]
  · have four' : bs.reverse.length = 4 := by rw [List.length_reverse, four]
    simp only [load, store, all, toNat_ofNat_ofDigits four', digits_ofDigits four',
      List.reverse_reverse]

/-- The word with the bytes of `x` in the opposite order. -/
def swap (x : UInt32) : UInt32 := load .big (store .little x)

theorem store_little_swap (x : UInt32) : store .little (swap x) = store .big x := by
  have all : (digits x.toNat).take 4 = digits x.toNat := rfl
  have all' : (digits x.toNat).reverse.take 4 = (digits x.toNat).reverse := rfl
  have e : swap x = load .little (store .big x) := by
    simp only [swap, load, store, all, all']
  rw [e, store_load .little (length_store .big x)]

theorem swap_swap (x : UInt32) : swap (swap x) = x := by
  have h : load .big (store .big x ++ []) = x := load_store .big x []
  rw [List.append_nil] at h
  rw [show swap (swap x) = load .big (store .little (swap x)) from rfl, store_little_swap, h]

/-- A word of the host as the word with its bytes in network order. -/
def toNetwork : ByteOrder → UInt32 → UInt32
  | .little, x => swap x
  | .big, x => x

@[simp] theorem toNetwork_toNetwork (o : ByteOrder) (x : UInt32) :
    toNetwork o (toNetwork o x) = x := by
  cases o
  · exact swap_swap x
  · rfl

/-- In memory, a word in network order is big-endian on every host. -/
theorem store_toNetwork (o : ByteOrder) (x : UInt32) : store o (toNetwork o x) = store .big x := by
  cases o
  · exact store_little_swap x
  · rfl

end Words
