import Mathlib.Data.Nat.Bitwise
import Ecryptfs.CString
import Ecryptfs.Lib.Access
import Ecryptfs.Lib.Integers

/-!
# The header of an encrypted file

`parseStat` reads the metadata at the front of an encrypted file: its size, the marker, the flags with
the version, and the size of the header.  The fields are big-endian; a little-endian host turns each of
them around after copying it, the size by shifts and masks of its own (`swab64`).
-/

namespace Ecryptfs

open Memory Memory.Access Integers

/-- `swab64`. -/
def swab64 (x : UInt64) : UInt64 :=
  x <<< 56 ||| x >>> 56 |||
    (x &&& 0x000000000000ff00) <<< 40 |||
    (x &&& 0x0000000000ff0000) <<< 24 |||
    (x &&& 0x00000000ff000000) <<< 8 |||
    (x &&& 0x000000ff00000000) >>> 8 |||
    (x &&& 0x0000ff0000000000) >>> 24 |||
    (x &&& 0x00ff000000000000) >>> 40

/-- `struct ecryptfs_crypt_stat_user`. -/
structure CryptStat where
  flags : UInt32
  fileVersion : UInt32
  fileSize : UInt64
  ivBytes : UInt64
  numHeaderBytesAtFront : UInt64
  extentSize : UInt64
  keySize : UInt64
  ptrToAuthTokListHead : UInt64
  deriving DecidableEq, Repr

/-- The structure after `memset`. -/
def CryptStat.zero : CryptStat := ⟨0, 0, 0, 0, 0, 0, 0, 0⟩

/-- `ECRYPTFS_ENCRYPTED`. -/
def encryptedFlag : UInt32 := 0x8

/-- `ECRYPTFS_ENABLE_HMAC`. -/
def enableHmacFlag : UInt32 := 0x20

/-- `ECRYPTFS_METADATA_IN_XATTR`. -/
def metadataInXattrFlag : UInt32 := 0x100

/-- `MAGIC_ECRYPTFS_MARKER`. -/
def magicMarker : UInt32 := 0x3c81b7f5

/-- `ECRYPTFS_FILE_SIZE_BYTES`. -/
def fileSizeBytes : ℕ := 8

/-- `MAGIC_ECRYPTFS_MARKER_SIZE_BYTES`. -/
def markerSizeBytes : ℕ := 8

/-- `ECRYPTFS_MINIMUM_HEADER_EXTENT_SIZE`. -/
def minimumHeaderExtentSize : UInt64 := 8192

section

variable (host : Words.ByteOrder)

/-- `host_is_big_endian`: the first byte of a stored one tells. -/
def hostIsBigEndian : Bool := (Words.store host 1).head? ≠ some 0x01

/-- A word of 32 bits at `buf`, through `ntohl` on a little-endian host. -/
def readLong (buf : ℕ) : Access UInt32 := do
  let bytes ← memcpy buf 4
  let word := Words.load host bytes
  return if hostIsBigEndian host then word else Words.toNetwork host word

/-- `ntohs`. -/
def ntohs (x : UInt16) : UInt16 := UInt16.ofNat (toNetwork host 2 x.toNat)

/-- A word of 16 bits at `buf`, through `ntohs` on a little-endian host. -/
def readShort (buf : ℕ) : Access UInt16 := do
  let bytes ← memcpy buf 2
  let word := UInt16.ofNat (load host bytes)
  return if hostIsBigEndian host then word else ntohs host word

/-- The file size at `buf`, through `swab64` on a little-endian host. -/
def readFileSize (buf : ℕ) : Access UInt64 := do
  let bytes ← memcpy buf fileSizeBytes
  let fileSize := UInt64.ofNat (load host bytes)
  return if hostIsBigEndian host then fileSize else swab64 fileSize

/-- `ecryptfs_contains_ecryptfs_marker`. -/
def containsMarker (data : ℕ) : Access Bool := do
  let m1 ← readLong host data
  let m2 ← readLong host (data + 4)
  return (m1 ^^^ magicMarker) = m2

/-- `ecryptfs_flag_map`: the flags in the file and those of `CryptStat`. -/
def flagMap : List (UInt32 × UInt32) :=
  [(0x00000001, enableHmacFlag), (0x00000002, encryptedFlag), (0x00000004, metadataInXattrFlag)]

/-- One turn of the loop over the flag map. -/
def applyFlag (fileFlags localFlags : UInt32) (element : UInt32 × UInt32) : UInt32 :=
  if fileFlags &&& element.1 ≠ 0 then localFlags ||| element.2 else localFlags &&& ~~~element.2

/-- `ecryptfs_process_flags`, which always returns zero; with the number of bytes read. -/
def processFlags (cryptStat : CryptStat) (buf : ℕ) : Access (CryptStat × ℕ) := do
  let flags ← readLong host buf
  return ({ cryptStat with
    flags := flagMap.foldl (applyFlag flags) cryptStat.flags
    fileVersion := (flags >>> 24) &&& 0xff }, 4)

/-- `ecryptfs_parse_header_metadata`, with its return code and the number of bytes read. -/
def parseHeaderMetadata (cryptStat : CryptStat) (buf : ℕ) (validateHeaderSize : Bool) :
    Access (ℤ × CryptStat × ℕ) := do
  let headerExtentSize ← readLong host buf
  let numHeaderExtentsAtFront ← readShort host (buf + 4)
  let bytes := numHeaderExtentsAtFront.toUInt64 * headerExtentSize.toUInt64
  let rc := if validateHeaderSize ∧ bytes < minimumHeaderExtentSize then -einval else 0
  return (rc, { cryptStat with numHeaderBytesAtFront := bytes }, 4 + 2)

/-- `ecryptfs_parse_stat`: the return code and what is in `crypt_stat` afterwards. -/
def parseStat (cryptStat : CryptStat) (bufSize : ℕ) : Access (ℤ × CryptStat) :=
  if bufSize < fileSizeBytes + markerSizeBytes + 4 then return (-einval, cryptStat)
  else do
    let fileSize ← readFileSize host 0
    let cryptStat := { CryptStat.zero with fileSize }
    let buf := fileSizeBytes
    let found ← containsMarker host buf
    if !found then return (-einval, cryptStat)
    else
      let buf := buf + markerSizeBytes
      let flagged ← processFlags host cryptStat buf
      let buf := buf + flagged.2
      let parsed ← parseHeaderMetadata host flagged.1 buf true
      return (parsed.1, parsed.2.1)

end

/-! ## What the readers compute -/

/-- The big-endian number in the `n` bytes from offset `i` on. -/
def field (m : Bytes) (i n : ℕ) : ℕ := load .big (slice m i n)

theorem field_lt (m : Bytes) (i n : ℕ) : field m i n < 256 ^ n := by
  have below := load_lt .big (slice m i n)
  rwa [length_slice] at below

section

variable (y : BitVec 64) {j b : ℕ}

/-- A bit of a number that is shifted left by some bytes. -/
theorem getLsbD_shiftLeft_bytes (s : ℕ) (inside : j < 8) (small : b < 8) :
    (y <<< (8 * s)).getLsbD (8 * j + b) = (decide (s ≤ j) && y.getLsbD (8 * (j - s) + b)) := by
  rw [BitVec.getLsbD_shiftLeft, decide_eq_true (show 8 * j + b < 64 by omega), Bool.true_and]
  by_cases le : s ≤ j
  · have offset : 8 * j + b - 8 * s = 8 * (j - s) + b := by omega
    rw [offset, decide_eq_false (show ¬8 * j + b < 8 * s by omega), decide_eq_true le, Bool.not_false]
  · rw [decide_eq_true (show 8 * j + b < 8 * s by omega), decide_eq_false le, Bool.not_true,
      Bool.false_and, Bool.false_and]

/-- A bit of a number that is shifted right by some bytes. -/
theorem getLsbD_shiftRight_bytes (s : ℕ) (small : b < 8) :
    (y >>> (8 * s)).getLsbD (8 * j + b) = (decide (j + s < 8) && y.getLsbD (8 * (j + s) + b)) := by
  have offset : 8 * s + (8 * j + b) = 8 * (j + s) + b := by omega
  rw [BitVec.getLsbD_ushiftRight, offset]
  by_cases inside : j + s < 8
  · rw [decide_eq_true inside, Bool.true_and]
  · rw [decide_eq_false inside, Bool.false_and, BitVec.getLsbD_of_ge _ _ (by omega)]

/-- The bits of one byte of a number. -/
theorem getLsbD_and_byte {k : ℕ} (byte : k < 8) (small : b < 8) :
    (y &&& 255#64 <<< (8 * k)).getLsbD (8 * j + b) = (decide (j = k) && y.getLsbD (8 * j + b)) := by
  have mask : (255 : ℕ) = 2 ^ 8 - 1 := rfl
  rw [BitVec.getLsbD_and, BitVec.getLsbD_shiftLeft, BitVec.getLsbD_ofNat, mask,
    Nat.testBit_two_pow_sub_one, Bool.and_comm, Bool.eq_iff_iff]
  simp only [Bool.and_eq_true, decide_eq_true_eq, Bool.not_eq_true', decide_eq_false_iff_not]
  constructor
  · rintro ⟨cut, bit⟩
    exact ⟨by omega, bit⟩
  · rintro ⟨rfl, bit⟩
    exact ⟨by omega, bit⟩

end

/-- The bits of `swab64`, each from the byte at the other end. -/
theorem swab64_bit (x : UInt64) {j b : ℕ} (inside : j < 8) (small : b < 8) :
    (swab64 x).toBitVec.getLsbD (8 * j + b) = x.toBitVec.getLsbD (8 * (7 - j) + b) := by
  have whole : (swab64 x).toBitVec =
      x.toBitVec <<< (8 * 7) ||| x.toBitVec >>> (8 * 7) |||
        (x.toBitVec &&& 255#64 <<< (8 * 1)) <<< (8 * 5) |||
        (x.toBitVec &&& 255#64 <<< (8 * 2)) <<< (8 * 3) |||
        (x.toBitVec &&& 255#64 <<< (8 * 3)) <<< (8 * 1) |||
        (x.toBitVec &&& 255#64 <<< (8 * 4)) >>> (8 * 1) |||
        (x.toBitVec &&& 255#64 <<< (8 * 5)) >>> (8 * 3) |||
        (x.toBitVec &&& 255#64 <<< (8 * 6)) >>> (8 * 5) := rfl
  rw [whole]
  simp only [BitVec.getLsbD_or, getLsbD_shiftLeft_bytes _ _ inside small,
    getLsbD_shiftRight_bytes _ _ small]
  rw [getLsbD_and_byte _ (by decide) small, getLsbD_and_byte _ (by decide) small,
    getLsbD_and_byte _ (by decide) small, getLsbD_and_byte _ (by decide) small,
    getLsbD_and_byte _ (by decide) small, getLsbD_and_byte _ (by decide) small]
  -- each byte of the result comes from one of the terms
  interval_cases j <;> simp

theorem swab64_ofDigits {bs : List UInt8} (eight : bs.length = 8) :
    swab64 (UInt64.ofNat (Words.ofDigits bs)) = UInt64.ofNat (Words.ofDigits bs.reverse) := by
  rw [← UInt64.toBitVec_inj]
  refine BitVec.eq_of_getLsbD_eq fun i inside => ?_
  obtain ⟨j, b, rfl, small⟩ : ∃ j b, i = 8 * j + b ∧ b < 8 := ⟨i / 8, i % 8, by omega, by omega⟩
  have inByte : j < 8 := by omega
  rw [swab64_bit _ inByte small]
  show (BitVec.ofNat 64 (Words.ofDigits bs)).getLsbD _ =
    (BitVec.ofNat 64 (Words.ofDigits bs.reverse)).getLsbD _
  have byte : ∀ k, (8 * k + b) / 8 = k := by omega
  have bit : ∀ k, (8 * k + b) % 8 = b := by omega
  have inside' : 8 * (7 - j) + b < 64 := by omega
  have opposite : bs.reverse.getD j 0 = bs.getD (7 - j) 0 := by
    rw [List.getD_eq_getElem?_getD, List.getD_eq_getElem?_getD, List.getElem?_reverse (by omega), eight]
  rw [BitVec.getLsbD_ofNat, BitVec.getLsbD_ofNat, testBit_ofDigits, testBit_ofDigits, byte, byte, bit,
    bit, opposite, decide_eq_true inside, decide_eq_true inside']

section

variable (host : Words.ByteOrder) (m : Bytes)

/-- A conversion that only a little-endian host makes. -/
theorem ite_hostIsBigEndian {α : Type} (f : Words.ByteOrder → α → α) (same : ∀ x, f .big x = x)
    (x : α) : (if hostIsBigEndian host then x else f host x) = f host x := by
  cases host
  · rfl
  · rw [same]
    exact ite_self x

@[simp] theorem run_readLong (buf : ℕ) :
    (readLong host buf).run m = UInt32.ofNat (field m buf 4) := by
  have four : (slice m buf 4).length = 4 := length_slice m buf 4
  rw [readLong, run_bind, run_memcpy, run_pure,
    ite_hostIsBigEndian host Words.toNetwork (fun _ => rfl), words_toNetwork_load host four, field]

@[simp] theorem run_readShort (buf : ℕ) :
    (readShort host buf).run m = UInt16.ofNat (field m buf 2) := by
  have small : load host (slice m buf 2) < 2 ^ 16 := by
    have below := load_lt host (slice m buf 2)
    rwa [length_slice] at below
  have order := toNetwork_load host (slice m buf 2)
  rw [length_slice] at order
  rw [readShort, run_bind, run_memcpy, run_pure, ite_hostIsBigEndian host ntohs, ntohs,
    UInt16.toNat_ofNat', Nat.mod_eq_of_lt small, order, field]
  exact fun x => UInt16.ofNat_toNat

@[simp] theorem run_readFileSize (buf : ℕ) :
    (readFileSize host buf).run m = UInt64.ofNat (field m buf 8) := by
  rw [readFileSize, run_bind, run_memcpy, run_pure]
  cases host
  · exact swab64_ofDigits (length_slice m buf 8)
  · rfl

/-- The second word of the marker is the first one with the bits of the magic number turned over. -/
def MarkerAt (i : ℕ) : Prop := field m (i + 4) 4 = field m i 4 ^^^ 0x3c81b7f5

instance (i : ℕ) : Decidable (MarkerAt m i) := inferInstanceAs (Decidable (_ = _))

theorem toNat_field_long (i : ℕ) : (UInt32.ofNat (field m i 4)).toNat = field m i 4 := by
  have small : field m i 4 < 2 ^ 32 := field_lt m i 4
  rw [UInt32.toNat_ofNat', Nat.mod_eq_of_lt small]

theorem toNat_field_short (i : ℕ) : (UInt16.ofNat (field m i 2)).toNat = field m i 2 := by
  have small : field m i 2 < 2 ^ 16 := field_lt m i 2
  rw [UInt16.toNat_ofNat', Nat.mod_eq_of_lt small]

@[simp] theorem run_containsMarker (data : ℕ) :
    (containsMarker host data).run m = decide (MarkerAt m data) := by
  rw [containsMarker, run_bind, run_bind, run_readLong, run_readLong, run_pure]
  refine decide_eq_decide.mpr ?_
  rw [← UInt32.toNat_inj, UInt32.toNat_xor, toNat_field_long, toNat_field_long]
  exact eq_comm

/-- The flags and the version from the word at offset `i`. -/
def CryptStat.withFlags (s : CryptStat) (i : ℕ) : CryptStat :=
  let word := UInt32.ofNat (field m i 4)
  { s with flags := flagMap.foldl (applyFlag word) s.flags, fileVersion := (word >>> 24) &&& 0xff }

/-- The size of the header from the two words at offset `i`. -/
def headerBytes (i : ℕ) : UInt64 :=
  (UInt16.ofNat (field m (i + 4) 2)).toUInt64 * (UInt32.ofNat (field m i 4)).toUInt64

@[simp] theorem run_processFlags (s : CryptStat) (buf : ℕ) :
    (processFlags host s buf).run m = (s.withFlags m buf, 4) := by
  rw [processFlags, run_bind, run_readLong]
  rfl

@[simp] theorem run_parseHeaderMetadata (s : CryptStat) (buf : ℕ) :
    (parseHeaderMetadata host s buf true).run m =
      (if headerBytes m buf < minimumHeaderExtentSize then -einval else 0,
        { s with numHeaderBytesAtFront := headerBytes m buf }, 6) := by
  rw [parseHeaderMetadata, run_bind, run_bind, run_readLong, run_readShort]
  simp only [run_pure, true_and]
  rfl

/-- What a header with the marker says. -/
def CryptStat.ofHeader : CryptStat :=
  { ({ CryptStat.zero with fileSize := UInt64.ofNat (field m 0 8) } : CryptStat).withFlags m 16 with
    numHeaderBytesAtFront := headerBytes m 20 }

theorem run_parseStat (s : CryptStat) {bufSize : ℕ} (enough : 20 ≤ bufSize) :
    (parseStat host s bufSize).run m =
      if MarkerAt m 8 then
        (if headerBytes m 20 < minimumHeaderExtentSize then -einval else 0, CryptStat.ofHeader m)
      else (-einval, { CryptStat.zero with fileSize := UInt64.ofNat (field m 0 8) }) := by
  have long : ¬bufSize < fileSizeBytes + markerSizeBytes + 4 := not_lt.mpr enough
  rw [parseStat, if_neg long, run_bind, run_readFileSize, run_bind, run_containsMarker]
  by_cases marker : MarkerAt m 8
  · have found : decide (MarkerAt m fileSizeBytes) = true := decide_eq_true marker
    rw [found, if_pos marker, if_neg (by decide), run_bind, run_processFlags, run_bind,
      run_parseHeaderMetadata]
    rfl
  · have missing : decide (MarkerAt m fileSizeBytes) = false := decide_eq_false marker
    rw [missing, if_neg marker, if_pos (by decide)]
    rfl

end

/-! ## The fields of the result -/

section

variable (m : Bytes)

theorem toNat_headerBytes (i : ℕ) :
    (headerBytes m i).toNat = field m i 4 * field m (i + 4) 2 := by
  have size : field m i 4 < 2 ^ 32 := field_lt m i 4
  have count : field m (i + 4) 2 < 2 ^ 16 := field_lt m (i + 4) 2
  have product : field m (i + 4) 2 * field m i 4 < 2 ^ 64 := by
    calc field m (i + 4) 2 * field m i 4 < 2 ^ 16 * 2 ^ 32 := Nat.mul_lt_mul'' count size
      _ ≤ 2 ^ 64 := by norm_num
  rw [headerBytes, UInt64.toNat_mul, UInt16.toNat_toUInt64, UInt32.toNat_toUInt64, toNat_field_long,
    toNat_field_short, Nat.mod_eq_of_lt product, mul_comm]

theorem headerBytes_lt_iff (i : ℕ) :
    headerBytes m i < minimumHeaderExtentSize ↔ field m i 4 * field m (i + 4) 2 < 8192 := by
  rw [UInt64.lt_iff_toNat_lt, toNat_headerBytes]
  rfl

/-- The flags of a file, as `CryptStat` keeps them. -/
def localFlags (hmac encrypted xattr : Bool) : UInt32 :=
  (bif hmac then enableHmacFlag else 0) ||| (bif encrypted then encryptedFlag else 0) |||
    (bif xattr then metadataInXattrFlag else 0)

theorem localFlags_iff (hmac encrypted xattr : Bool) :
    (localFlags hmac encrypted xattr &&& enableHmacFlag ≠ 0 ↔ hmac = true) ∧
      (localFlags hmac encrypted xattr &&& encryptedFlag ≠ 0 ↔ encrypted = true) ∧
      (localFlags hmac encrypted xattr &&& metadataInXattrFlag ≠ 0 ↔ xattr = true) := by
  revert hmac encrypted xattr
  decide

/-- A bit of a word, as the loop over the flag map asks for it. -/
theorem and_ne_zero_iff (word mask : UInt32) (k : ℕ) (single : mask.toNat = 2 ^ k) :
    word &&& mask ≠ 0 ↔ word.toNat.testBit k = true := by
  rw [Ne, ← UInt32.toNat_inj, UInt32.toNat_and, single, Nat.and_two_pow]
  cases word.toNat.testBit k
  · simp
  · simp

/-- The loop over the flag map sets the flags that the word asks for, and no others. -/
theorem foldl_flagMap (word : UInt32) : flagMap.foldl (applyFlag word) 0 =
    localFlags (word.toNat.testBit 0) (word.toNat.testBit 1) (word.toNat.testBit 2) := by
  have hmac := and_ne_zero_iff word 1 0 rfl
  have encrypted := and_ne_zero_iff word 2 1 rfl
  have xattr := and_ne_zero_iff word 4 2 rfl
  simp only [flagMap, List.foldl_cons, List.foldl_nil, applyFlag, hmac, encrypted, xattr]
  cases word.toNat.testBit 0 <;> cases word.toNat.testBit 1 <;> cases word.toNat.testBit 2 <;> decide

theorem toNat_version (word : UInt32) :
    ((word >>> 24) &&& 0xff).toNat = word.toNat / 2 ^ 24 := by
  have small : word.toNat / 2 ^ 24 < 2 ^ 8 := by
    have := word.toNat_lt
    omega
  have shifted : (word >>> 24).toNat = word.toNat / 2 ^ 24 := by
    rw [UInt32.toNat_shiftRight, Nat.shiftRight_eq_div_pow]
    rfl
  have mask : (0xff : UInt32).toNat = 2 ^ 8 - 1 := rfl
  rw [UInt32.toNat_and, shifted, mask, Nat.and_two_pow_sub_one_of_lt_two_pow small]

/-- What the fields of a header are in `CryptStat`. -/
theorem ofHeader_fields :
    (CryptStat.ofHeader m).fileSize.toNat = field m 0 8 ∧
      (CryptStat.ofHeader m).fileVersion.toNat = field m 16 4 / 2 ^ 24 ∧
      (CryptStat.ofHeader m).numHeaderBytesAtFront.toNat = field m 20 4 * field m 24 2 ∧
      (CryptStat.ofHeader m).flags = localFlags ((field m 16 4).testBit 0) ((field m 16 4).testBit 1)
        ((field m 16 4).testBit 2) := by
  refine ⟨?_, ?_, toNat_headerBytes m 20, ?_⟩
  · have small : field m 0 8 < 2 ^ 64 := field_lt m 0 8
    show (UInt64.ofNat (field m 0 8)).toNat = field m 0 8
    rw [UInt64.toNat_ofNat', Nat.mod_eq_of_lt small]
  · show ((UInt32.ofNat (field m 16 4) >>> 24) &&& 0xff).toNat = _
    rw [toNat_version, toNat_field_long]
  · show flagMap.foldl (applyFlag (UInt32.ofNat (field m 16 4))) 0 = _
    rw [foldl_flagMap, toNat_field_long]

end

/-! ## Reading back what was written -/

/-- The bytes at the front of an encrypted file; the second word of the marker follows from the
first. -/
def encodeHeader (fileSize : UInt64) (marker flags headerExtentSize : UInt32)
    (numHeaderExtentsAtFront : UInt16) : List UInt8 :=
  store .big 8 fileSize.toNat ++ store .big 4 marker.toNat ++
    store .big 4 (marker ^^^ magicMarker).toNat ++ store .big 4 flags.toNat ++
    store .big 4 headerExtentSize.toNat ++ store .big 2 numHeaderExtentsAtFront.toNat

/-- The field that was stored at the start. -/
theorem field_store {k n : ℕ} (small : n < 256 ^ k) (rest : List UInt8) (beyond : Bytes) :
    field (holding (store .big k n ++ rest) beyond) 0 k = n := by
  have stored := slice_holding (store .big k n) (holding rest beyond)
  rw [length_store] at stored
  rw [holding_append, field, stored, load_store, Nat.mod_eq_of_lt small]

/-- The fields behind the one that was stored at the start. -/
theorem field_behind (w v : ℕ) (rest : List UInt8) (beyond : Bytes) (i k : ℕ) :
    field (holding (store .big w v ++ rest) beyond) (i + w) k = field (holding rest beyond) i k := by
  refine congrArg (load .big) (List.map_congr_left fun j _ => ?_)
  have behind := holding_length_add (store .big w v) (holding rest beyond) (i + j)
  rw [length_store] at behind
  rw [holding_append, ← behind]
  congr 1
  omega

theorem length_encodeHeader (fileSize : UInt64) (marker flags headerExtentSize : UInt32)
    (numHeaderExtentsAtFront : UInt16) :
    (encodeHeader fileSize marker flags headerExtentSize numHeaderExtentsAtFront).length = 26 := by
  simp only [encodeHeader, List.length_append, length_store]

section

variable (fileSize : UInt64) (marker flags headerExtentSize : UInt32)
  (numHeaderExtentsAtFront : UInt16) (rest : List UInt8) (beyond : Bytes)

/-- The fields of an encoded header, whatever follows it. -/
theorem field_encodeHeader :
    let m := holding
      (encodeHeader fileSize marker flags headerExtentSize numHeaderExtentsAtFront ++ rest) beyond
    field m 0 8 = fileSize.toNat ∧ field m 8 4 = marker.toNat ∧
      field m 12 4 = (marker ^^^ magicMarker).toNat ∧ field m 16 4 = flags.toNat ∧
      field m 20 4 = headerExtentSize.toNat ∧ field m 24 2 = numHeaderExtentsAtFront.toNat := by
  have nested :
      encodeHeader fileSize marker flags headerExtentSize numHeaderExtentsAtFront ++ rest =
        store .big 8 fileSize.toNat ++ (store .big 4 marker.toNat ++
          (store .big 4 (marker ^^^ magicMarker).toNat ++ (store .big 4 flags.toNat ++
            (store .big 4 headerExtentSize.toNat ++
              (store .big 2 numHeaderExtentsAtFront.toNat ++ rest))))) := by
    simp only [encodeHeader, List.append_assoc]
  intro m
  simp only [m, nested]
  refine ⟨field_store fileSize.toNat_lt _ _, ?_, ?_, ?_, ?_, ?_⟩
  · rw [field_behind 8 _ _ _ 0, field_store marker.toNat_lt]
  · rw [field_behind 8 _ _ _ 4, field_behind 4 _ _ _ 0, field_store (UInt32.toNat_lt _)]
  · rw [field_behind 8 _ _ _ 8, field_behind 4 _ _ _ 4, field_behind 4 _ _ _ 0,
      field_store flags.toNat_lt]
  · rw [field_behind 8 _ _ _ 12, field_behind 4 _ _ _ 8, field_behind 4 _ _ _ 4,
      field_behind 4 _ _ _ 0, field_store headerExtentSize.toNat_lt]
  · rw [field_behind 8 _ _ _ 16, field_behind 4 _ _ _ 12, field_behind 4 _ _ _ 8,
      field_behind 4 _ _ _ 4, field_behind 4 _ _ _ 0, field_store numHeaderExtentsAtFront.toNat_lt]

end

theorem run_parseStat_eq_zero (host : Words.ByteOrder) (m : Bytes) (s : CryptStat) {bufSize : ℕ}
    (enough : 20 ≤ bufSize) : ((parseStat host s bufSize).run m).1 = 0 ↔
      MarkerAt m 8 ∧ 8192 ≤ field m 20 4 * field m 24 2 := by
  rw [run_parseStat host m s enough]
  by_cases marker : MarkerAt m 8
  · rw [if_pos marker]
    by_cases short : field m 20 4 * field m 24 2 < 8192
    · simp [headerBytes_lt_iff, marker, short, einval]
    · simp [headerBytes_lt_iff, marker, short, not_lt.mp short]
  · simp [marker, einval]

/-- The big-endian number in the `n` bytes of a buffer from offset `i` on. -/
def numberAt (b : List UInt8) (i n : ℕ) : ℕ := load .big ((b.drop i).take n)

theorem field_holding_inside {b : List UInt8} {i n : ℕ} (inside : i + n ≤ b.length)
    (beyond : Bytes) : field (holding b beyond) i n = numberAt b i n := by
  rw [field, slice_holding_inside inside, numberAt]

/-- **Parsing the header.**  On every host a buffer with a whole header is accepted exactly when the
marker matches and the header has its least size, and then every field is the big-endian number of
its bytes.  A header that was encoded is read back, whatever its values. -/
theorem parseStat_spec (host : Words.ByteOrder) (s : CryptStat) {b : List UInt8}
    (whole : 26 ≤ b.length) (beyond : Bytes) :
    let result := (parseStat host s b.length).run (holding b beyond)
    (result.1 = 0 ↔ numberAt b 12 4 = numberAt b 8 4 ^^^ 0x3c81b7f5 ∧
      8192 ≤ numberAt b 20 4 * numberAt b 24 2) ∧
    (result.1 = 0 →
      result.2.fileSize.toNat = numberAt b 0 8 ∧
      result.2.fileVersion.toNat = numberAt b 16 4 / 2 ^ 24 ∧
      result.2.numHeaderBytesAtFront.toNat = numberAt b 20 4 * numberAt b 24 2 ∧
      (result.2.flags &&& enableHmacFlag ≠ 0 ↔ (numberAt b 16 4).testBit 0 = true) ∧
      (result.2.flags &&& encryptedFlag ≠ 0 ↔ (numberAt b 16 4).testBit 1 = true) ∧
      (result.2.flags &&& metadataInXattrFlag ≠ 0 ↔ (numberAt b 16 4).testBit 2 = true)) ∧
    ∀ (fileSize : UInt64) (marker flags headerExtentSize : UInt32)
      (numHeaderExtentsAtFront : UInt16) (rest : List UInt8),
      let header := encodeHeader fileSize marker flags headerExtentSize numHeaderExtentsAtFront
      let parsed := (parseStat host s (header ++ rest).length).run (holding (header ++ rest) beyond)
      (parsed.1 = 0 ↔ 8192 ≤ headerExtentSize.toNat * numHeaderExtentsAtFront.toNat) ∧
      parsed.2.fileSize = fileSize ∧ parsed.2.fileVersion.toNat = flags.toNat / 2 ^ 24 ∧
      parsed.2.numHeaderBytesAtFront.toNat =
        headerExtentSize.toNat * numHeaderExtentsAtFront.toNat ∧
      parsed.2.flags = localFlags (flags.toNat.testBit 0) (flags.toNat.testBit 1)
        (flags.toNat.testBit 2) := by
  have inside : ∀ {i n : ℕ}, i + n ≤ 26 → field (holding b beyond) i n = numberAt b i n :=
    fun le => field_holding_inside (le.trans whole) beyond
  have accepted := run_parseStat_eq_zero host (holding b beyond) s (show 20 ≤ b.length by omega)
  rw [MarkerAt, inside (by norm_num), inside (by norm_num), inside (by norm_num),
    inside (by norm_num)] at accepted
  refine ⟨accepted, ?_, ?_⟩
  · intro zero
    obtain ⟨size, version, bytes, flags⟩ := ofHeader_fields (holding b beyond)
    rw [inside (by norm_num)] at size version
    rw [inside (by norm_num), inside (by norm_num)] at bytes
    rw [inside (by norm_num)] at flags
    obtain ⟨marker, -⟩ := (run_parseStat_eq_zero host _ s (by omega)).mp zero
    rw [run_parseStat host _ s (by omega), if_pos marker]
    obtain ⟨hmac, encrypted, xattr⟩ := localFlags_iff ((numberAt b 16 4).testBit 0)
      ((numberAt b 16 4).testBit 1) ((numberAt b 16 4).testBit 2)
    rw [← flags] at hmac encrypted xattr
    exact ⟨size, version, bytes, hmac, encrypted, xattr⟩
  · intro fileSize marker flags headerExtentSize numHeaderExtentsAtFront rest header parsed
    obtain ⟨atSize, atMarker, atMarker', atFlags, atExtent, atCount⟩ := field_encodeHeader fileSize
      marker flags headerExtentSize numHeaderExtentsAtFront rest beyond
    have enough : 20 ≤ (header ++ rest).length := by
      rw [List.length_append, length_encodeHeader]
      omega
    have matches_ : MarkerAt (holding (header ++ rest) beyond) 8 := by
      rw [MarkerAt, atMarker, atMarker', UInt32.toNat_xor]
      rfl
    obtain ⟨size, version, bytes, localFlags⟩ := ofHeader_fields (holding (header ++ rest) beyond)
    rw [atSize] at size
    rw [atFlags] at version localFlags
    rw [atExtent, atCount] at bytes
    have accepted := run_parseStat_eq_zero host (holding (header ++ rest) beyond) s enough
    rw [atExtent, atCount] at accepted
    have whole : parsed.2 = CryptStat.ofHeader (holding (header ++ rest) beyond) := by
      show ((parseStat host s _).run _).2 = _
      rw [run_parseStat host _ s enough, if_pos matches_]
    rw [whole]
    exact ⟨accepted.trans (and_iff_right matches_), UInt64.toNat_inj.mp size, version, bytes,
      localFlags⟩

/-- The metadata of an encrypted file of 5000 bytes, of version 3, with two extents of 4096 bytes. -/
def sampleHeader : List UInt8 :=
  [0, 0, 0, 0, 0, 0, 19, 136, 1, 2, 3, 4, 61, 131, 180, 241, 3, 0, 0, 2, 0, 0, 16, 0, 0, 2]

theorem parseStat_spec_sample :
    let result := (parseStat .little CryptStat.zero sampleHeader.length).run
      (holding sampleHeader fun _ => 0xff)
    result.1 = 0 ∧ result.2.fileSize.toNat = 5000 ∧
      result.2.numHeaderBytesAtFront.toNat = 8192 := by
  have spec := parseStat_spec .little CryptStat.zero (b := sampleHeader) (by decide) fun _ => 0xff
  have accepted := spec.1.mpr ⟨by decide, by decide⟩
  obtain ⟨size, -, bytes, -⟩ := spec.2.1 accepted
  exact ⟨accepted, size.trans (by decide), bytes.trans (by decide)⟩

end Ecryptfs
