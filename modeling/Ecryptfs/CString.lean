import Mathlib.Data.List.TakeWhile
import Mathlib.Tactic

/-!
# C strings

A C string is the list of its bytes before the terminating NUL.  String literals of the sources are
coerced through their UTF-8 bytes (`lit`); two literals are the same C string only if they are the
same literal (`lit_inj`).  The error numbers of the C library used by the sources are collected here
as well.
-/

namespace Ecryptfs

/-- The bytes of a C string, without the terminating NUL. -/
abbrev CStr := List UInt8

/-- A string literal of the sources. -/
def lit (s : String) : CStr := s.toByteArray.data.toList

instance : Coe String CStr := ⟨lit⟩

@[simp] theorem lit_inj {a b : String} : lit a = lit b ↔ a = b := by
  constructor
  · intro h
    exact String.toByteArray_inj.mp (ByteArray.ext (Array.toList_inj.mp h))
  · rintro rfl
    rfl

/-- What `printf` prints for a null pointer under `%s`. -/
def nullText : CStr := "(null)"

/-- The text `printf` produces for a possibly null string under `%s`. -/
def printed (s : Option CStr) : CStr := s.getD nullText

theorem bne_of_mem {c : UInt8} {s : List UInt8} (absent : c ∉ s) : ∀ d ∈ s, (d != c) = true := by
  intro d among
  rw [bne_iff_ne]
  rintro rfl
  exact absent among

/-- The text in a buffer. -/
def cString (buf : List UInt8) : CStr := buf.takeWhile (· != 0)

theorem cString_begins (buf : List UInt8) : cString buf <+: buf := List.takeWhile_prefix _

theorem notMem_cString (buf : List UInt8) : 0 ∉ cString buf := by
  intro among
  have text := List.mem_takeWhile_imp among
  simp at text

theorem cString_of_notMem {buf : List UInt8} (noNul : 0 ∉ buf) : cString buf = buf := by
  rw [cString, List.takeWhile_eq_self_iff]
  exact bne_of_mem noNul

/-- Zeros behind a buffer do not change its text. -/
theorem cString_append_zeros (buf : List UInt8) (n : ℕ) :
    cString (buf ++ List.replicate n 0) = cString buf := by
  have zeros : (List.replicate n (0 : UInt8)).takeWhile (· != 0) = [] := by
    rw [List.takeWhile_replicate]
    rfl
  unfold cString
  rw [List.takeWhile_append, zeros, List.append_nil]
  split_ifs with whole
  · exact ((List.takeWhile_prefix _).eq_of_length whole).symm
  · rfl

/-- `fgets` with a buffer of `n` bytes, on the rest of a file: the bytes that are stored, and what is left
to be read. -/
def fgets (n : ℕ) (rest : List UInt8) : Option (List UInt8 × List UInt8) :=
  if rest = [] then none
  else
    let line := (rest.take (n - 1)).takeWhile (· != 10)
    let stored := rest.take (min (line.length + 1) (n - 1))
    some (stored, rest.drop stored.length)

/-- A line that fits is stored with its newline. -/
theorem fgets_line {n : ℕ} {line : List UInt8} (noNewline : 10 ∉ line) (fits : line.length + 1 < n)
    (rest : List UInt8) : fgets n (line ++ 10 :: rest) = some (line ++ [10], rest) := by
  have taken : (line ++ 10 :: rest).take (n - 1) = line ++ 10 :: rest.take (n - 2 - line.length) := by
    rw [List.take_append, List.take_of_length_le (by omega),
      show n - 1 - line.length = n - 2 - line.length + 1 by omega, List.take_succ_cons]
  have found : ((line ++ 10 :: rest).take (n - 1)).takeWhile (· != 10) = line := by
    rw [taken, List.takeWhile_append_of_pos (bne_of_mem noNewline),
      List.takeWhile_cons_of_neg (by simp), List.append_nil]
  have stored : (line ++ 10 :: rest).take (min (line.length + 1) (n - 1)) = line ++ [10] := by
    rw [min_eq_left (by omega), List.take_append, List.take_of_length_le (by omega),
      Nat.add_sub_cancel_left]
    rfl
  have split : line ++ 10 :: rest = line ++ [10] ++ rest := by simp
  unfold fgets
  rw [if_neg (by simp), found]
  dsimp only
  rw [stored, split, List.drop_left]

/-- Of a longer line the buffer is filled. -/
theorem fgets_full {n : ℕ} {line : List UInt8} (noNewline : 10 ∉ line) (long : n ≤ line.length + 1)
    (some_ : line ≠ []) (rest : List UInt8) :
    fgets n (line ++ rest) = some (line.take (n - 1), line.drop (n - 1) ++ rest) := by
  have taken : (line ++ rest).take (n - 1) = line.take (n - 1) :=
    List.take_append_of_le_length (by omega)
  have inside : (line.take (n - 1)).takeWhile (· != 10) = line.take (n - 1) := by
    rw [List.takeWhile_eq_self_iff]
    exact bne_of_mem fun among => noNewline (List.mem_of_mem_take among)
  have size : (line.take (n - 1)).length = n - 1 := List.length_take_of_le (by omega)
  unfold fgets
  rw [if_neg (by simp [some_]), taken, inside]
  dsimp only
  rw [size, min_eq_right (by omega), taken, size, List.drop_append_of_le_length (by omega)]

/-- The text in front of the last occurrence of a character, or the whole text: what is left of `s` when
`strrchr(s, c)` is overwritten by a NUL. -/
def cutLast (c : UInt8) (s : CStr) : CStr :=
  if c ∈ s then ((s.reverse.dropWhile (· ≠ c)).drop 1).reverse else s

theorem cutLast_append (c : UInt8) (s : CStr) : cutLast c (s ++ [c]) = s := by
  simp [cutLast]

theorem cutLast_of_notMem {c : UInt8} {s : CStr} (absent : c ∉ s) : cutLast c s = s := if_neg absent

/-- `isspace` in the C locale. -/
def isSpace (c : UInt8) : Bool := c = 32 || (9 ≤ c && c ≤ 13)

/-- `isdigit`. -/
def isDigit (c : UInt8) : Bool := 48 ≤ c && c ≤ 57

/-- The value of a run of decimal digits after the value `acc` already read. -/
def decimal (acc : ℕ) : CStr → ℕ
  | [] => acc
  | c :: s => if isDigit c then decimal (10 * acc + (c.toNat - 48)) s else acc

/-- `atoi`: white space, an optional sign, and the digits that follow. -/
def atoi (s : CStr) : ℤ :=
  match s.dropWhile isSpace with
  | 43 :: r => decimal 0 r
  | 45 :: r => -(decimal 0 r : ℤ)
  | r => decimal 0 r

/-- `strtol` with base ten, or `none` when no digit follows the white space and the sign, so that
nothing is converted; the result saturates at the bounds of a `long`. -/
def strtol (s : CStr) : Option ℤ :=
  let t := s.dropWhile isSpace
  let digits := if t.head? = some 43 ∨ t.head? = some 45 then t.tail else t
  if (digits.head?.map isDigit).getD false then
    some (max (-2 ^ 63) (min (2 ^ 63 - 1) (atoi s)))
  else none

/-- `strstr`, as a test. -/
def strstr (haystack needle : CStr) : Bool := haystack.tails.any fun t => needle.isPrefixOf t

theorem strstr_iff {haystack needle : CStr} : strstr haystack needle = true ↔ needle <:+: haystack := by
  rw [strstr, List.any_eq_true, List.infix_iff_prefix_suffix]
  constructor
  · rintro ⟨t, isTail, isPrefix⟩
    exact ⟨t, List.isPrefixOf_iff_prefix.mp isPrefix, (List.mem_tails _ _).mp isTail⟩
  · rintro ⟨t, isPrefix, isTail⟩
    exact ⟨t, (List.mem_tails _ _).mpr isTail, List.isPrefixOf_iff_prefix.mpr isPrefix⟩

/-- A text does not occur where its first character does not. -/
theorem strstr_of_notMem {c : UInt8} {haystack : CStr} (needle : CStr) (absent : c ∉ haystack) :
    strstr haystack (c :: needle) = false := by
  rw [Bool.eq_false_iff]
  intro occurs
  exact absent ((strstr_iff.mp occurs).subset List.mem_cons_self)

/-- What follows the first occurrence of a character, for `strchr(s, c) + 1`. -/
def afterChar (c : UInt8) (s : CStr) : Option CStr :=
  match s.dropWhile (· ≠ c) with
  | [] => none
  | _ :: rest => some rest

theorem afterChar_cons_self (c : UInt8) (s : CStr) : afterChar c (c :: s) = some s := by
  rw [afterChar, List.dropWhile_cons_of_neg (by simp)]

theorem afterChar_cons_of_ne {c d : UInt8} (other : d ≠ c) (s : CStr) :
    afterChar c (d :: s) = afterChar c s := by
  rw [afterChar, List.dropWhile_cons_of_pos (by simpa using other), afterChar]

/-- The text around the first occurrence of a character. -/
theorem afterChar_some {c : UInt8} {s next : CStr} (found : afterChar c s = some next) :
    s = s.takeWhile (· ≠ c) ++ c :: next := by
  induction s with
  | nil => cases found
  | cons d s ih =>
    by_cases isChar : d = c
    · rw [isChar, afterChar_cons_self] at found
      rw [isChar, List.takeWhile_cons_of_neg (by simp), Option.some.inj found]
      rfl
    · rw [afterChar_cons_of_ne isChar] at found
      rw [List.takeWhile_cons_of_pos (by simpa using isChar), List.cons_append, ← ih found]

theorem afterChar_none {c : UInt8} {s : CStr} (missing : afterChar c s = none) :
    s.takeWhile (· ≠ c) = s := by
  induction s with
  | nil => rfl
  | cons d s ih =>
    by_cases isChar : d = c
    · rw [isChar, afterChar_cons_self] at missing
      cases missing
    · rw [afterChar_cons_of_ne isChar] at missing
      rw [List.takeWhile_cons_of_pos (by simpa using isChar), ih missing]

/-- The value of a hexadecimal digit. -/
def hexValue (c : UInt8) : Option ℕ :=
  if isDigit c then some (c.toNat - 48)
  else if 97 ≤ c ∧ c ≤ 102 then some (c.toNat - 87)
  else if 65 ≤ c ∧ c ≤ 70 then some (c.toNat - 55)
  else none

/-- The value of a run of hexadecimal digits after the value `acc` already read. -/
def hexadecimal (acc : ℕ) : CStr → ℕ
  | [] => acc
  | c :: s =>
    match hexValue c with
    | some d => hexadecimal (16 * acc + d) s
    | none => acc

/-- `strtol` with base sixteen of a text of at most two characters, for which the prefix `0x` makes
no difference. -/
def strtolHex (s : CStr) : ℤ :=
  match s.dropWhile isSpace with
  | 43 :: r => hexadecimal 0 r
  | 45 :: r => -(hexadecimal 0 r : ℤ)
  | r => hexadecimal 0 r

/-- The decimal text of a number, as `printf` prints it under `%d`. -/
def decimalText (n : ℕ) : CStr := lit (toString n)

/-- The bytes of a text of decimal digits are the codes of the digits. -/
theorem lit_digits {cs : List Char} (digits : ∀ c ∈ cs, c.isDigit) :
    lit (String.ofList cs) = cs.map fun c => c.val.toUInt8 := by
  induction cs with
  | nil => rfl
  | cons c cs ih =>
    have digit := digits c List.mem_cons_self
    have small : c.utf8Size = 1 := by
      rw [Char.utf8Size_eq_one_iff]
      simp only [Char.isDigit, Bool.and_eq_true, decide_eq_true_eq] at digit
      have upper : c.val.toNat ≤ 57 := digit.2
      exact UInt32.le_iff_toNat_le.mpr (le_trans upper (by decide))
    have ih := ih fun d among => digits d (List.mem_cons_of_mem c among)
    unfold lit at ih ⊢
    rw [String.toByteArray_ofList] at ih ⊢
    rw [List.utf8Encode_cons, List.utf8Encode_singleton, String.utf8EncodeChar_eq_singleton small,
      ByteArray.data_append, Array.toList_append, ih]
    simp

theorem isDigit_code {c : Char} (digit : c.isDigit) :
    isDigit c.val.toUInt8 = true ∧ c.val.toUInt8.toNat = c.toNat := by
  simp only [Char.isDigit, Bool.and_eq_true, decide_eq_true_eq] at digit
  have lower : 48 ≤ c.val.toNat := digit.1
  have upper : c.val.toNat ≤ 57 := digit.2
  have code : c.val.toUInt8.toNat = c.val.toNat := by
    rw [UInt32.toNat_toUInt8]
    omega
  refine ⟨?_, code⟩
  simp only [isDigit, Bool.and_eq_true, decide_eq_true_eq, UInt8.le_iff_toNat_le, code]
  exact ⟨lower, upper⟩

/-- Digits are read up to the first character that is none. -/
theorem decimal_digits {cs : List Char} (digits : ∀ c ∈ cs, c.isDigit) (acc : ℕ) {d : UInt8}
    (stop : isDigit d = false) (rest : CStr) :
    decimal acc ((cs.map fun c => c.val.toUInt8) ++ d :: rest) = Nat.ofDigitChars 10 cs acc := by
  induction cs generalizing acc with
  | nil => simp [decimal, stop]
  | cons c cs ih =>
    obtain ⟨isOne, code⟩ := isDigit_code (digits c List.mem_cons_self)
    rw [List.map_cons, List.cons_append, decimal, if_pos isOne, code,
      ih fun d among => digits d (List.mem_cons_of_mem c among), Nat.ofDigitChars_cons]
    rfl

theorem decimalText_eq (n : ℕ) :
    decimalText n = (Nat.toDigits 10 n).map fun c => c.val.toUInt8 := by
  rw [decimalText, Nat.toString_eq_ofList_toDigits]
  exact lit_digits fun c among => Nat.isDigit_of_mem_toDigits (by norm_num) (by norm_num) among

/-- What follows a character that is no digit does not count. -/
theorem decimal_stop (acc : ℕ) (s : CStr) {d : UInt8} (stop : isDigit d = false) (rest : CStr) :
    decimal acc (s ++ d :: rest) = decimal acc s := by
  induction s generalizing acc with
  | nil => simp [decimal, stop]
  | cons c s ih =>
    rw [List.cons_append, decimal, decimal]
    split_ifs
    · exact ih _
    · rfl

/-- A decimal text has the value of its number. -/
theorem decimal_decimalText (n : ℕ) : decimal 0 (decimalText n) = n := by
  have digits : ∀ c ∈ Nat.toDigits 10 n, c.isDigit := fun c among =>
    Nat.isDigit_of_mem_toDigits (by norm_num) (by norm_num) among
  have value := decimal_digits digits 0 (show isDigit 0 = false by decide) []
  rw [← decimalText_eq, Nat.ofDigitChars_ten_toDigits, decimal_stop 0 _ (by decide)] at value
  exact value

theorem decimalText_injective : Function.Injective decimalText := fun n k same => by
  rw [← decimal_decimalText n, same, decimal_decimalText k]

theorem not_space_of_isDigit {c : UInt8} (digit : isDigit c = true) : isSpace c = false := by
  simp only [isDigit, isSpace, Bool.and_eq_true, decide_eq_true_eq, Bool.or_eq_false_iff,
    Bool.and_eq_false_iff, decide_eq_false_iff_not, UInt8.le_iff_toNat_le, ← UInt8.toNat_inj,
    UInt8.reduceToNat] at digit ⊢
  omega

/-- A text that begins with a digit is read from there, up to the largest `long`. -/
theorem strtol_digit {c : UInt8} (digit : isDigit c = true) (s : CStr) :
    strtol (c :: s) = some (min (2 ^ 63 - 1) (decimal 0 (c :: s) : ℤ)) := by
  have whole : (c :: s).dropWhile isSpace = c :: s :=
    List.dropWhile_cons_of_neg (by simp [not_space_of_isDigit digit])
  have notPlus : c ≠ 43 := by
    rintro rfl
    simp [isDigit] at digit
  have notMinus : c ≠ 45 := by
    rintro rfl
    simp [isDigit] at digit
  have read : atoi (c :: s) = decimal 0 (c :: s) := by
    unfold atoi
    rw [whole]
    split
    · rename_i heq
      exact absurd (List.cons.inj heq).1 notPlus
    · rename_i heq
      exact absurd (List.cons.inj heq).1 notMinus
    · rfl
  have noSign : ¬ ((c :: s).head? = some 43 ∨ (c :: s).head? = some 45) := by
    simp [notPlus, notMinus]
  have bounded : max (-2 ^ 63) (min (2 ^ 63 - 1) (decimal 0 (c :: s) : ℤ)) =
      min (2 ^ 63 - 1) (decimal 0 (c :: s) : ℤ) := by
    omega
  unfold strtol
  rw [whole, read, bounded]
  dsimp only
  rw [if_neg noSign]
  simp only [List.head?_cons, Option.map_some, digit, Option.getD_some, if_true]

/-- A number that fits a `long` is read as it is. -/
theorem strtol_of_digit {c : UInt8} (digit : isDigit c = true) {s : CStr}
    (fits : decimal 0 (c :: s) < 2 ^ 63) : strtol (c :: s) = some (decimal 0 (c :: s) : ℤ) := by
  rw [strtol_digit digit, min_eq_right (by omega)]

/-- A printed number is read back. -/
theorem strtol_decimalText {n : ℕ} (fits : n < 2 ^ 63) {d : UInt8} (stop : isDigit d = false)
    (rest : CStr) : strtol (decimalText n ++ d :: rest) = some (n : ℤ) := by
  have digits : ∀ c ∈ Nat.toDigits 10 n, c.isDigit := fun c among =>
    Nat.isDigit_of_mem_toDigits (by norm_num) (by norm_num) among
  have value := decimal_digits digits 0 stop rest
  rw [← decimalText_eq, Nat.ofDigitChars_ten_toDigits] at value
  rcases text : decimalText n with _ | ⟨c, cs⟩
  · rw [decimalText_eq, List.map_eq_nil_iff] at text
    exact absurd text Nat.toDigits_ne_nil
  · have first : isDigit c = true := by
      have among : c ∈ decimalText n := text ▸ List.mem_cons_self
      rw [decimalText_eq, List.mem_map] at among
      obtain ⟨e, among, rfl⟩ := among
      exact (isDigit_code (digits e among)).1
    rw [text, List.cons_append] at value
    rw [List.cons_append, strtol_of_digit first (value.trans_lt fits), value]

/-- A length below 2^31 is the same as an `int`. -/
theorem bmod_length {n : ℕ} (short : n < 2 ^ 31) : Int.bmod n (2 ^ 32) = n :=
  Int.bmod_eq_of_le (by omega) (by omega)

/-- What goes wrong in C: an `int` overflows, or memory outside a block is used. -/
inductive Fault where
  | overflow
  | outside
  deriving DecidableEq, Repr

/-- A character is stored in a block. -/
def storeChar (val : List UInt8) (i : ℕ) (c : UInt8) : Except Fault (List UInt8) :=
  if i < val.length then .ok (val.set i c) else .error .outside

def eio : ℤ := 5
def enomem : ℤ := 12
def efault : ℤ := 14
def einval : ℤ := 22
def efbig : ℤ := 27
def enokey : ℤ := 126

end Ecryptfs
