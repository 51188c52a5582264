import Ecryptfs.Lib.Words
import Ecryptfs.Options.Reading
import Ecryptfs.Passphrase.Signature

/-!
# Identifiers of keys in a TPM

`ecryptfs-generate-tpm-key` prints the identifier of a new key byte by byte, in groups of four; the
`tspi` key module reads it word by word and brings each word into network order.  On every host the
identifier that is read is the one that was printed.  The printer computes the size of the text as an
`int`, which is enough for less than 2^30 bytes (`uuidText_iff`).
-/

namespace Ecryptfs

open Words

/-! ## Printing -/

/-- One `sprintf` of `util_bytes_to_string`, which prints the four bytes from `i` on. -/
def printGroup (bytes : List UInt8) (ret : List UInt8) (i : ℕ) : Except Fault (List UInt8) :=
  let group := (bytes.drop i).take 4
  let text := toHex group ++ [0]
  if group.length < 4 ∨ ret.length < i * 2 + text.length then .error .outside
  else .ok (Records.overwrite 0 ret (i * 2) text)

/-- What `util_bytes_to_string` writes to its block: one group after the other, and the terminator. -/
def printGroups (bytes : List UInt8) (ret : List UInt8) (chars : ℕ) : Except Fault (List UInt8) := do
  let ret ← ((List.range ((chars + 3) / 4)).map (4 * ·)).foldlM (printGroup bytes) ret
  storeChar ret (chars * 2) 0

/-- `util_bytes_to_string`, with the number of bytes as an `int`: a null pointer without memory, else
the block with the text.  No allocator grants a negative size, which is huge as a `size_t`. -/
def utilBytesToString (heap : Heap) (allocates : ℕ → Bool) (bytes : List UInt8) :
    Except Fault (Option (List UInt8)) :=
  let chars := Int.bmod bytes.length (2 ^ 32)
  if chars * 2 < -2 ^ 31 ∨ 2 ^ 31 ≤ chars * 2 then .error .overflow
  else if chars * 2 + 1 < 0 then .ok none
  else
    let size := (chars * 2 + 1).toNat
    if allocates size then (printGroups bytes (heap.malloc size) chars.toNat).map some
    else .ok none

/-! ## Reading -/

/-- A prefix `0x` is skipped if a digit follows. -/
def skipHexPrefix (s : CStr) : CStr :=
  if s.head? = some 48 ∧ (s[1]? = some 120 ∨ s[1]? = some 88) ∧ (s[2]?.bind hexValue).isSome then
    s.drop 2
  else s

/-- `strtoul` with base sixteen, for an `unsigned long` of 64 bits. -/
def strtoulHex (s : CStr) : ℕ :=
  let t := s.dropWhile isSpace
  let digits := if t.head? = some 43 ∨ t.head? = some 45 then t.tail else t
  let n := hexadecimal 0 (skipHexPrefix digits)
  if 2 ^ 64 ≤ n then 2 ^ 64 - 1
  else if t.head? = some 45 then (2 ^ 64 - n) % 2 ^ 64
  else n

/-- One turn of `string_to_uuid`, which reads the eight characters from `i` on. -/
def uuidWord (host : ByteOrder) (str : List UInt8) (uuid : List UInt8) (i : ℕ) :
    Except Fault (List UInt8) :=
  let tmp := (str.drop i).take 8
  if tmp.length < 8 then .error .outside
  else
    let l := UInt32.ofNat (strtoulHex (cString (tmp ++ [0])))
    .ok (Records.overwrite 0 uuid (i / 2) (store host (toNetwork host l)))

/-- The size of a `TSS_UUID`. -/
def uuidSize : ℕ := 16

/-- `string_to_uuid` on the block of a string. -/
def stringToUuid (host : ByteOrder) (uuid : List UInt8) (str : List UInt8) :
    Except Fault (List UInt8) :=
  ((List.range (uuidSize * 2 / 8)).map (8 * ·)).foldlM (uuidWord host str) uuid

/-- The text printed for an identifier is read as this identifier, whatever was in the structure before;
and the text printed for the given bytes is that of their digits, which fills the block. -/
structure UuidText (bytes : List UInt8) : Prop where
  roundTrip : ∀ (host : ByteOrder) (heap : Heap) (old uuid : Vector UInt8 16), ∃ block,
    utilBytesToString heap (fun _ => true) uuid.toList = .ok (some block) ∧
      stringToUuid host old.toList (cString block ++ [0]) = .ok uuid.toList
  prints : ∀ heap : Heap,
    utilBytesToString heap (fun _ => true) bytes = .ok (some (toHex bytes ++ [0]))

/-! ## Digits -/

/-- What is known of the digits one by one. -/
theorem hexDigit_spec {n : ℕ} (digit : n < 16) :
    hexValue (hexDigit n) = some n ∧ isSpace (hexDigit n) = false ∧ hexDigit n ≠ 0 ∧
      hexDigit n ≠ 43 ∧ hexDigit n ≠ 45 ∧ hexDigit n ≠ 120 ∧ hexDigit n ≠ 88 := by
  revert n
  decide

/-- Two digits are read as their byte. -/
theorem hexadecimal_cons (acc : ℕ) (b : UInt8) (src : List UInt8) :
    hexadecimal acc (toHex (b :: src)) = hexadecimal (256 * acc + b.toNat) (toHex src) := by
  have bound := b.toNat_lt
  have whole : toHex (b :: src) = hexDigit (b.toNat / 16) :: hexDigit (b.toNat % 16) :: toHex src := rfl
  have value : 16 * (16 * acc + b.toNat / 16) + b.toNat % 16 = 256 * acc + b.toNat := by omega
  rw [whole, hexadecimal, (hexDigit_spec (by omega)).1]
  dsimp only
  rw [hexadecimal, (hexDigit_spec (by omega)).1]
  dsimp only
  rw [value]

/-- The digits of four bytes are read as the word that they hold on a big-endian host. -/
theorem strtoulHex_toHex {group : List UInt8} (four : group.length = 4) :
    UInt32.ofNat (strtoulHex (toHex group)) = load .big group := by
  match group, four with
  | [a, b, c, d], _ =>
    have bound := a.toNat_lt
    have high := hexDigit_spec (show a.toNat / 16 < 16 by omega)
    have low := hexDigit_spec (show a.toNat % 16 < 16 by omega)
    have small : ofDigits [d, c, b, a] < 2 ^ 32 := ofDigits_lt rfl
    have value : hexadecimal 0 (toHex [a, b, c, d]) = ofDigits [d, c, b, a] := by
      rw [hexadecimal_cons, hexadecimal_cons, hexadecimal_cons, hexadecimal_cons]
      simp only [toHex, List.flatMap_nil, hexadecimal, ofDigits]
      omega
    have start : (toHex [a, b, c, d]).dropWhile isSpace = toHex [a, b, c, d] :=
      List.dropWhile_cons_of_neg (by simp [high.2.1])
    have first : (toHex [a, b, c, d]).head? = some (hexDigit (a.toNat / 16)) := rfl
    have second : (toHex [a, b, c, d])[1]? = some (hexDigit (a.toNat % 16)) := rfl
    have skipped : skipHexPrefix (toHex [a, b, c, d]) = toHex [a, b, c, d] := by
      refine if_neg ?_
      rw [second]
      simp [low]
    rw [strtoulHex, start, first]
    simp only [Option.some.injEq, high, or_self, if_false]
    rw [skipped, value, if_neg (by omega)]
    rfl

/-! ## The printer -/

/-- The digits of the first bytes and of the four behind them. -/
theorem toHex_take_add (bytes : List UInt8) (m : ℕ) :
    toHex (bytes.take (4 * (m + 1))) =
      toHex (bytes.take (4 * m)) ++ toHex ((bytes.drop (4 * m)).take 4) := by
  rw [← toHex_append, Nat.mul_succ, List.take_add]

/-- Some turns of the printer put the digits of as many groups in front of the rest of the block. -/
theorem printGroup_loop {bytes ret : List UInt8} {m : ℕ} (inside : 4 * m ≤ bytes.length)
    (size : ret.length = 2 * bytes.length + 1) :
    ∃ rest, ((List.range m).map (4 * ·)).foldlM (printGroup bytes) ret =
        .ok (toHex (bytes.take (4 * m)) ++ rest) ∧
      (toHex (bytes.take (4 * m)) ++ rest).length = ret.length := by
  induction m with
  | zero => exact ⟨ret, rfl, rfl⟩
  | succ m ih =>
    obtain ⟨rest, printed, length⟩ := ih (by omega)
    have group : ((bytes.drop (4 * m)).take 4).length = 4 := by
      rw [List.length_take, List.length_drop]
      omega
    have text : (toHex ((bytes.drop (4 * m)).take 4) ++ [0]).length = 9 := by
      rw [List.length_append, length_toHex, group]
      rfl
    have offset : 4 * m * 2 = (toHex (bytes.take (4 * m))).length := by
      rw [length_toHex, List.length_take_of_le (by omega), Nat.mul_comm]
    have turn : printGroup bytes (toHex (bytes.take (4 * m)) ++ rest) (4 * m) =
        .ok (toHex (bytes.take (4 * (m + 1))) ++ (0 :: rest.drop 9)) := by
      rw [printGroup, if_neg (by omega), offset, Records.overwrite_append, text, toHex_take_add]
      simp only [List.append_assoc, List.singleton_append]
    refine ⟨0 :: rest.drop 9, ?_, ?_⟩
    · rw [List.range_succ, List.map_append, List.foldlM_append, printed]
      simp only [List.map_cons, List.map_nil, List.foldlM_cons, List.foldlM_nil, bind, Except.bind, turn]
      rfl
    · rw [List.length_append] at length
      rw [toHex_take_add, List.length_append, List.length_append, List.length_cons, List.length_drop,
        length_toHex ((bytes.drop (4 * m)).take 4), group]
      omega

/-- Bytes in groups of four fill a block of twice their number and one. -/
theorem printGroups_ok {bytes ret : List UInt8} (whole : 4 ∣ bytes.length)
    (size : ret.length = 2 * bytes.length + 1) :
    printGroups bytes ret bytes.length = .ok (toHex bytes ++ [0]) := by
  obtain ⟨m, groups⟩ := whole
  have count : (bytes.length + 3) / 4 = m := by omega
  have offset : bytes.length * 2 = (toHex bytes).length := by rw [length_toHex, Nat.mul_comm]
  obtain ⟨rest, printed, length⟩ := printGroup_loop groups.ge size
  rw [← groups, List.take_length] at printed length
  obtain ⟨last, rfl⟩ : ∃ last, rest = [last] := by
    rw [← List.length_eq_one_iff]
    rw [List.length_append, length_toHex, size] at length
    omega
  have stored : storeChar (toHex bytes ++ [last]) (toHex bytes).length 0 = .ok (toHex bytes ++ [0]) := by
    rw [storeChar, if_pos (by rw [List.length_append]; exact Nat.lt_succ_self _),
      List.set_append_right _ _ (le_refl _), Nat.sub_self, List.set_cons_zero]
  rw [printGroups, count, printed, offset]
  exact stored

/-- Fewer than 2^30 bytes in groups of four are printed as a whole. -/
theorem utilBytesToString_ok {bytes : List UInt8} (whole : 4 ∣ bytes.length)
    (short : bytes.length < 2 ^ 30) (heap : Heap) :
    utilBytesToString heap (fun _ => true) bytes = .ok (some (toHex bytes ++ [0])) := by
  have chars : Int.bmod bytes.length (2 ^ 32) = bytes.length := bmod_length (by omega)
  have size : ((bytes.length : ℤ) * 2 + 1).toNat = 2 * bytes.length + 1 := by omega
  have block : (heap.malloc (2 * bytes.length + 1)).length = 2 * bytes.length + 1 :=
    Memory.length_slice _ _ _
  have fits : ¬((bytes.length : ℤ) * 2 < -2 ^ 31 ∨ 2 ^ 31 ≤ (bytes.length : ℤ) * 2) := by omega
  have nonneg : ¬(bytes.length : ℤ) * 2 + 1 < 0 := by omega
  unfold utilBytesToString
  simp only [chars, if_neg fits, if_neg nonneg, size, if_true, Int.toNat_natCast]
  rw [printGroups_ok whole block]
  rfl

/-- A group is printed inside the block. -/
theorem printGroup_length {bytes ret ret' : List UInt8} {i : ℕ}
    (printed : printGroup bytes ret i = .ok ret') : ret'.length = ret.length := by
  unfold printGroup at printed
  dsimp only at printed
  split_ifs at printed with outside
  obtain rfl := Except.ok.inj printed
  obtain ⟨-, inside⟩ := not_or.mp outside
  rw [Records.length_overwrite (by omega)]
  omega

theorem printGroups_length {bytes ret ret' : List UInt8} {chars : ℕ}
    (printed : printGroups bytes ret chars = .ok ret') : ret'.length = ret.length := by
  have loop : ∀ (groups : List ℕ) (ret ret' : List UInt8),
      groups.foldlM (printGroup bytes) ret = .ok ret' → ret'.length = ret.length := by
    intro groups
    induction groups with
    | nil =>
      intro ret ret' same
      rw [Except.ok.inj same]
    | cons i groups ih =>
      intro ret ret' printed
      rw [List.foldlM_cons] at printed
      rcases first : printGroup bytes ret i with f | next
      · rw [first] at printed
        cases printed
      · rw [first] at printed
        exact (ih next ret' printed).trans (printGroup_length first)
  rw [printGroups] at printed
  rcases looped : ((List.range ((chars + 3) / 4)).map (4 * ·)).foldlM (printGroup bytes) ret with f | last
  · rw [looped] at printed
    cases printed
  · rw [looped] at printed
    have stored : storeChar last (chars * 2) 0 = .ok ret' := printed
    unfold storeChar at stored
    split_ifs at stored
    obtain rfl := Except.ok.inj stored
    rw [List.length_set]
    exact loop _ _ _ looped

/-- A text that is printed has the size that was computed for it. -/
theorem utilBytesToString_length {heap : Heap} {allocates : ℕ → Bool} {bytes ret : List UInt8}
    (printed : utilBytesToString heap allocates bytes = .ok (some ret)) :
    Int.bmod bytes.length (2 ^ 32) * 2 < 2 ^ 31 ∧
      (ret.length : ℤ) = Int.bmod bytes.length (2 ^ 32) * 2 + 1 := by
  unfold utilBytesToString at printed
  dsimp only at printed
  split_ifs at printed with overflow negative allocated
  · cases Except.ok.inj printed
  · rcases groups : printGroups bytes (heap.malloc (Int.bmod bytes.length (2 ^ 32) * 2 + 1).toNat)
        (Int.bmod bytes.length (2 ^ 32)).toNat with f | last
    · rw [groups] at printed
      cases printed
    · rw [groups] at printed
      obtain rfl := Option.some.inj (Except.ok.inj printed)
      rw [printGroups_length groups, Heap.malloc, Memory.length_slice]
      omega
  · cases Except.ok.inj printed

/-! ## The reader -/

/-- Some turns of the reader put as many words in front of the rest of the structure. -/
theorem uuidWord_loop (host : ByteOrder) {uuid : List UInt8} (old : List UInt8) {m : ℕ}
    (inside : 4 * m ≤ uuid.length) :
    ((List.range m).map (8 * ·)).foldlM (uuidWord host (toHex uuid ++ [0])) old =
      .ok (uuid.take (4 * m) ++ old.drop (4 * m)) := by
  induction m with
  | zero => rfl
  | succ m ih =>
    have group : ((uuid.drop (4 * m)).take 4).length = 4 := by
      rw [List.length_take, List.length_drop]
      omega
    have text : (toHex ((uuid.drop (4 * m)).take 4)).length = 8 := by
      rw [length_toHex, group]
    have offset : 8 * m / 2 = (uuid.take (4 * m)).length := by
      rw [List.length_take_of_le (by omega)]
      omega
    have tmp : ((toHex uuid ++ [0]).drop (8 * m)).take 8 = toHex ((uuid.drop (4 * m)).take 4) := by
      have eight : 8 * m = 2 * (4 * m) := by omega
      have there : 8 * m + 8 ≤ (toHex uuid).length := by
        rw [length_toHex]
        omega
      rw [List.drop_append_of_le_length (by omega), List.take_append_of_le_length
        (by rw [List.length_drop]; omega), eight, drop_toHex, ← take_toHex]
    have turn : uuidWord host (toHex uuid ++ [0]) (uuid.take (4 * m) ++ old.drop (4 * m)) (8 * m) =
        .ok (uuid.take (4 * (m + 1)) ++ old.drop (4 * (m + 1))) := by
      rw [uuidWord, tmp, if_neg (by omega), cString_toHex, strtoulHex_toHex group]
      dsimp only
      rw [store_toNetwork, store_load .big group, offset, Records.overwrite_append, group,
        List.drop_drop, Nat.mul_succ, List.take_add, List.append_assoc]
    rw [List.range_succ, List.map_append, List.foldlM_append, ih (by omega)]
    simp only [List.map_cons, List.map_nil, List.foldlM_cons, List.foldlM_nil, bind, Except.bind, turn]
    rfl

/-- The text of an identifier is read as this identifier. -/
theorem stringToUuid_toHex (host : ByteOrder) (old uuid : Vector UInt8 16) :
    stringToUuid host old.toList (toHex uuid.toList ++ [0]) = .ok uuid.toList := by
  have size : old.toList.length = uuid.toList.length := by simp
  have whole : 4 * (uuidSize * 2 / 8) = uuid.toList.length := by simp [uuidSize]
  have read := uuidWord_loop host old.toList whole.le
  rwa [whole, List.take_length, List.drop_of_length_le size.le, List.append_nil] at read

/-- What is printed for an identifier is read as this identifier. -/
theorem uuid_roundTrip (host : ByteOrder) (heap : Heap) (old uuid : Vector UInt8 16) : ∃ block,
    utilBytesToString heap (fun _ => true) uuid.toList = .ok (some block) ∧
      stringToUuid host old.toList (cString block ++ [0]) = .ok uuid.toList := by
  refine ⟨_, utilBytesToString_ok (by simp) (by simp) heap, ?_⟩
  rw [cString_toHex]
  exact stringToUuid_toHex host old uuid

/-! ## Both programs -/

theorem not_uuidText {bytes : List UInt8} (long : 2 ^ 30 ≤ bytes.length) : ¬ UuidText bytes := by
  intro text
  obtain ⟨fits, length⟩ := utilBytesToString_length (text.prints ⟨fun _ _ => 0, fun _ _ => 0⟩)
  rw [List.length_append, length_toHex, List.length_singleton] at length
  omega

/-- **Identifiers of keys.**  On every host each identifier is read as it was printed, and bytes in groups
of four are printed as their digits, if and only if there are less than 2^30 of these bytes. -/
theorem uuidText_iff {bytes : List UInt8} (whole : 4 ∣ bytes.length) :
    UuidText bytes ↔ bytes.length < 2 ^ 30 := by
  constructor
  · intro text
    by_contra long
    exact not_uuidText (not_lt.mp long) text
  · intro short
    exact ⟨uuid_roundTrip, utilBytesToString_ok whole short⟩

/-- Twenty bytes, as in a register of a TPM. -/
theorem uuidText_register : UuidText (List.replicate 20 0xa5) :=
  (uuidText_iff (by decide)).mpr (by decide)

end Ecryptfs
