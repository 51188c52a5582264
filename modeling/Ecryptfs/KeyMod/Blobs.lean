import Ecryptfs.CString
import Ecryptfs.Lib.Memory

/-!
# Blobs of the key modules

The modules `openssl` and `pkcs11-helper` keep what they need to find a key in a blob: texts and a
certificate, each behind a length of two bytes.  The lengths are stored without a check, so that a
length from 65536 on is stored as its remainder; the decoders go by the lengths to the next field, and
take texts up to their terminating zero.

Both modules come back to what they serialized as long as the lengths in front of other fields fit
(`roundTrips_iff`); a field that is too long can only be made up for by a text that itself looks like
the fields behind it.
-/

namespace Ecryptfs

open Memory

/-- A C string as the texts of the blobs are: without a zero byte. -/
abbrev NulFree := { s : CStr // 0 ∉ s }

/-- The two bytes of a length. -/
def lengthBytes (n : ℕ) : List UInt8 := [UInt8.ofNat (n % 256), UInt8.ofNat (n / 256)]

/-- The length in two bytes of memory. -/
def loadLength (m : Bytes) (i : ℕ) : ℕ := (m i).toNat % 256 + (m (i + 1)).toNat * 256

/-- What a call of a serializer returns and stores: its code, the size of the blob, and the bytes
written to the blob if there is one. -/
structure Serialized where
  rc : ℤ
  blobSize : ℕ
  written : List UInt8
  deriving DecidableEq

/-- A text as it is copied: with its terminating zero. -/
def terminated (s : CStr) : List UInt8 := s ++ [0]

/-! ## The module `openssl` -/

/-- `struct openssl_data`, with the texts its pointers lead to. -/
structure OpensslData where
  path : Option CStr
  passphrase : Option CStr

/-- `ecryptfs_openssl_serialize`, with or without a blob to write to. -/
def opensslSerialize (blob : Bool) (data : OpensslData) : Serialized :=
  match data.path, data.passphrase with
  | some path, some passphrase =>
    let pathLength := path.length + 1
    let passphraseLength := passphrase.length + 1
    { rc := 0
      blobSize := 2 + pathLength + 2 + passphraseLength
      written :=
        if blob then lengthBytes pathLength ++ (terminated path ++
          (lengthBytes passphraseLength ++ terminated passphrase))
        else [] }
  | _, _ => ⟨-einval, 0, []⟩

/-- `struct openssl_data` with its pointers, as offsets into a blob. -/
structure OpensslPointers where
  path : ℕ
  passphrase : ℕ

/-- `ecryptfs_openssl_deserialize`; the second length is read and not used. -/
def opensslDeserialize (blob : Bytes) : OpensslPointers :=
  let pathLength := loadLength blob 0
  { path := 2
    passphrase := 2 + pathLength + 2 }

/-! ## The module `pkcs11-helper` -/

/-- `struct pkcs11h_data`, with what its pointers lead to. -/
structure Pkcs11hData where
  serializedId : Option CStr
  certificateBlob : List UInt8
  passphrase : Option CStr

/-- `ecryptfs_pkcs11h_serialize`, with or without a blob to write to.  The result is `none` when the
length of a null passphrase is asked for. -/
def pkcs11hSerialize (blob : Bool) (data : Pkcs11hData) : Option Serialized :=
  match data.serializedId, data.passphrase with
  | none, _ => some ⟨-einval, 0, []⟩
  | some _, none => none
  | some serializedId, some passphrase =>
    let serializedIdLength := serializedId.length + 1
    let passphraseLength := passphrase.length + 1
    some
      { rc := 0
        blobSize := 1 + 1 + serializedIdLength + 1 + 1 + data.certificateBlob.length + 1 + 1 +
          passphraseLength
        written :=
          if blob then lengthBytes serializedIdLength ++ (terminated serializedId ++
            (lengthBytes data.certificateBlob.length ++ (data.certificateBlob ++
              (lengthBytes passphraseLength ++ terminated passphrase))))
          else [] }

/-- `struct pkcs11h_data` with its pointers, as offsets into a blob; a null pointer is `none`. -/
structure Pkcs11hPointers where
  serializedId : Option ℕ
  certificateBlob : Option ℕ
  certificateBlobSize : ℕ
  passphrase : Option ℕ

/-- A pointer to a field of a blob, which is null for an empty field. -/
def fieldPointer (i length : ℕ) : Option ℕ := if length = 0 then none else some i

/-- `ecryptfs_pkcs11h_deserialize`. -/
def pkcs11hDeserialize (blob : Bytes) : Pkcs11hPointers :=
  let serializedIdLength := loadLength blob 0
  let i := 2 + serializedIdLength
  let certificateBlobSize := loadLength blob i
  let j := i + 2 + certificateBlobSize
  let passphraseLength := loadLength blob j
  { serializedId := fieldPointer 2 serializedIdLength
    certificateBlob := fieldPointer (i + 2) certificateBlobSize
    certificateBlobSize
    passphrase := fieldPointer (j + 2) passphraseLength }

/-! ## Round trips -/

/-- What a key module is asked to serialize. -/
inductive KeyBlob where
  | openssl (path passphrase : NulFree)
  | pkcs11h (serializedId : NulFree) (certificate : List UInt8) (passphrase : NulFree)

/-- The pointers of `openssl` lead to the path and to the passphrase. -/
structure OpensslPointers.Yield (p : OpensslPointers) (blob : Bytes) (path passphrase : CStr) :
    Prop where
  path : TextAt blob p.path path
  passphrase : TextAt blob p.passphrase passphrase

/-- The pointers of `pkcs11-helper` lead to the three values. -/
structure Pkcs11hPointers.Yield (p : Pkcs11hPointers) (blob : Bytes) (serializedId : CStr)
    (certificate : List UInt8) (passphrase : CStr) : Prop where
  serializedId : ∃ i, p.serializedId = some i ∧ TextAt blob i serializedId
  certificateBlobSize : p.certificateBlobSize = certificate.length
  certificateBlob : certificate ≠ [] →
    ∃ i, p.certificateBlob = some i ∧ slice blob i certificate.length = certificate
  passphrase : ∃ i, p.passphrase = some i ∧ TextAt blob i passphrase

/-- A module gets back from a blob what it was asked to serialize, whatever lies behind the blob, and
the call that asks for the size reports the number of bytes that are written. -/
def RoundTrips : KeyBlob → Prop
  | .openssl path passphrase =>
    let data : OpensslData := ⟨some path.1, some passphrase.1⟩
    let sized := opensslSerialize false data
    let done := opensslSerialize true data
    done.rc = 0 ∧ sized.rc = 0 ∧ sized.blobSize = done.written.length ∧
      ∀ fresh, (opensslDeserialize (holding done.written fresh)).Yield (holding done.written fresh)
        path.1 passphrase.1
  | .pkcs11h serializedId certificate passphrase =>
    let data : Pkcs11hData := ⟨some serializedId.1, certificate, some passphrase.1⟩
    ∃ sized done, pkcs11hSerialize false data = some sized ∧ pkcs11hSerialize true data = some done ∧
      done.rc = 0 ∧ sized.rc = 0 ∧ sized.blobSize = done.written.length ∧
      ∀ fresh, (pkcs11hDeserialize (holding done.written fresh)).Yield (holding done.written fresh)
        serializedId.1 certificate passphrase.1

/-- Bytes that begin with a certificate and a passphrase as fields, the length of the passphrase being
any but zero. -/
def BeginsWithFields (bytes certificate : List UInt8) (passphrase : CStr) : Prop :=
  ∃ low high : UInt8, ¬ (low = 0 ∧ high = 0) ∧
    lengthBytes certificate.length ++ (certificate ++ ([low, high] ++ terminated passphrase)) <+: bytes

/-- The lengths fit, or a text that is too long happens to look like the fields behind it. -/
def Fits : KeyBlob → Prop
  | .openssl path passphrase =>
    path.1.length + 1 < 65536 ∨ passphrase.1 = path.1.drop ((path.1.length + 1) % 65536 + 2)
  | .pkcs11h serializedId certificate passphrase =>
    certificate.length < 65536 ∧
      if serializedId.1.length + 1 < 65536 then (passphrase.1.length + 1) % 65536 ≠ 0
      else (serializedId.1.length + 1) % 65536 ≠ 0 ∧
        BeginsWithFields (terminated (serializedId.1.drop ((serializedId.1.length + 1) % 65536)) ++
          (lengthBytes certificate.length ++ (certificate ++
            (lengthBytes (passphrase.1.length + 1) ++ terminated passphrase.1))))
          certificate passphrase.1

@[simp] theorem length_lengthBytes (n : ℕ) : (lengthBytes n).length = 2 := rfl

@[simp] theorem length_terminated (s : CStr) : (terminated s).length = s.length + 1 := by
  simp [terminated]

theorem lengthBytes_mod (n : ℕ) : lengthBytes (n % 65536) = lengthBytes n := by
  have low : n % 65536 % 256 = n % 256 := by omega
  have high : n % 65536 / 256 % 256 = n / 256 % 256 := by omega
  simp only [lengthBytes, low, List.cons.injEq, and_true, true_and, ← UInt8.toNat_inj,
    UInt8.toNat_ofNat', Nat.reducePow]
  exact high

/-- A length is what its two bytes are the length bytes of. -/
theorem loadLength_eq_iff (m : Bytes) (i n : ℕ) :
    loadLength m i = n ↔ n < 65536 ∧ slice m i 2 = lengthBytes n := by
  have first := (m i).toNat_lt
  have second := (m (i + 1)).toNat_lt
  have two : slice m i 2 = [m i, m (i + 1)] := rfl
  rw [two, loadLength, lengthBytes]
  simp only [List.cons.injEq, and_true, ← UInt8.toNat_inj, UInt8.toNat_ofNat', Nat.reducePow] at *
  omega

theorem loadLength_of_slice {m : Bytes} {i n : ℕ} (stored : slice m i 2 = lengthBytes n) :
    loadLength m i = n % 65536 :=
  (loadLength_eq_iff m i _).mpr ⟨Nat.mod_lt _ (by norm_num), stored.trans (lengthBytes_mod n).symm⟩

/-- A length at a known place. -/
theorem loadLength_holding (a b : List UInt8) (n : ℕ) (beyond : Bytes) :
    loadLength (holding (a ++ (lengthBytes n ++ b)) beyond) a.length = n % 65536 := by
  refine loadLength_of_slice ?_
  rw [← List.append_assoc, holding_append]
  exact slice_holding_append a (lengthBytes n) _

/-- A text that a blob has after some other bytes. -/
theorem textAt_terminated (a b : List UInt8) (s : NulFree) (beyond : Bytes) :
    TextAt (holding (a ++ (terminated s.1 ++ b)) beyond) a.length s.1 := by
  rw [← List.append_assoc]
  exact textAt_holding a b s.2 beyond

/-! ## When `openssl` comes back -/

/-- The text to which the pointer to the passphrase leads: the passphrase, or the rest of a path whose
length does not fit. -/
theorem openssl_textAt (path passphrase : NulFree) (fresh : Bytes) :
    TextAt (holding (lengthBytes (path.1.length + 1) ++ (terminated path.1 ++
        (lengthBytes (passphrase.1.length + 1) ++ terminated passphrase.1))) fresh)
      (2 + (path.1.length + 1) % 65536 + 2)
      (if path.1.length + 1 < 65536 then passphrase.1
        else path.1.drop ((path.1.length + 1) % 65536 + 2)) := by
  split_ifs with fits
  · have front : (lengthBytes (path.1.length + 1) ++ (terminated path.1 ++
        lengthBytes (passphrase.1.length + 1))).length = 2 + (path.1.length + 1) % 65536 + 2 := by
      simp only [List.length_append, length_lengthBytes, length_terminated, Nat.mod_eq_of_lt fits]
      omega
    have found := textAt_terminated (lengthBytes (path.1.length + 1) ++ (terminated path.1 ++
      lengthBytes (passphrase.1.length + 1))) [] passphrase fresh
    rw [front] at found
    simpa using found
  · -- the pointer leads into the path
    have inside : (path.1.length + 1) % 65536 + 2 ≤ path.1.length := by omega
    have rest : 0 ∉ path.1.drop ((path.1.length + 1) % 65536 + 2) :=
      fun zero => path.2 (List.mem_of_mem_drop zero)
    have front : (lengthBytes (path.1.length + 1) ++
        path.1.take ((path.1.length + 1) % 65536 + 2)).length = 2 + (path.1.length + 1) % 65536 + 2 := by
      rw [List.length_append, length_lengthBytes, List.length_take_of_le inside, Nat.add_assoc]
    have found := textAt_terminated (lengthBytes (path.1.length + 1) ++
      path.1.take ((path.1.length + 1) % 65536 + 2))
      (lengthBytes (passphrase.1.length + 1) ++ terminated passphrase.1) ⟨_, rest⟩ fresh
    rw [front] at found
    have split : path.1.take ((path.1.length + 1) % 65536 + 2) ++
        terminated (path.1.drop ((path.1.length + 1) % 65536 + 2)) = terminated path.1 := by
      rw [terminated, ← List.append_assoc, List.take_append_drop, terminated]
    rwa [List.append_assoc, ← List.append_assoc (path.1.take _), split] at found

theorem openssl_roundTrips_iff (path passphrase : NulFree) :
    RoundTrips (.openssl path passphrase) ↔ Fits (.openssl path passphrase) := by
  have sized : 2 + (path.1.length + 1) + 2 + (passphrase.1.length + 1) =
      (lengthBytes (path.1.length + 1) ++ (terminated path.1 ++
        (lengthBytes (passphrase.1.length + 1) ++ terminated passphrase.1))).length := by
    simp only [List.length_append, length_lengthBytes, length_terminated]
    omega
  have pathLength : ∀ fresh, loadLength (holding (lengthBytes (path.1.length + 1) ++ (terminated path.1 ++
      (lengthBytes (passphrase.1.length + 1) ++ terminated passphrase.1))) fresh) 0 =
        (path.1.length + 1) % 65536 := fun fresh => loadLength_holding [] _ _ fresh
  have fits : Fits (.openssl path passphrase) ↔ (if path.1.length + 1 < 65536 then passphrase.1
      else path.1.drop ((path.1.length + 1) % 65536 + 2)) = passphrase.1 := by
    unfold Fits
    split_ifs with small
    · simp [small]
    · simp only [small, false_or, eq_comm]
  rw [fits]
  constructor
  · rintro ⟨-, -, -, yields⟩
    have found := (yields fun _ => 0).passphrase
    simp only [opensslDeserialize, opensslSerialize, if_true, pathLength] at found
    exact (openssl_textAt path passphrase fun _ => 0).unique found
  · intro same
    refine ⟨rfl, rfl, sized, fun fresh => ⟨textAt_terminated _ _ path fresh, ?_⟩⟩
    have found := openssl_textAt path passphrase fresh
    rw [same] at found
    simp only [opensslDeserialize, opensslSerialize, if_true, pathLength]
    exact found

/-! ## When `pkcs11-helper` comes back -/

/-- A certificate and a passphrase as the fields from offset `j` on. -/
structure FieldsAt (m : Bytes) (j : ℕ) (certificate : List UInt8) (passphrase : CStr) : Prop where
  size : loadLength m j = certificate.length
  content : slice m (j + 2) certificate.length = certificate
  nonempty : loadLength m (j + 2 + certificate.length) ≠ 0
  passphrase : TextAt m (j + 2 + certificate.length + 2) passphrase

theorem fieldPointer_eq_some {i length k : ℕ} :
    fieldPointer i length = some k ↔ length ≠ 0 ∧ i = k := by
  unfold fieldPointer
  split_ifs with zero
  · simp [zero]
  · simp [zero]

/-- The decoder yields the three values exactly when they are where the lengths say. -/
theorem pkcs11h_yield_iff (m : Bytes) (serializedId : CStr) (certificate : List UInt8)
    (passphrase : CStr) :
    (pkcs11hDeserialize m).Yield m serializedId certificate passphrase ↔
      TextAt m 2 serializedId ∧ loadLength m 0 ≠ 0 ∧
        FieldsAt m (2 + loadLength m 0) certificate passphrase := by
  constructor
  · rintro ⟨⟨i, isId, idText⟩, size, cert, ⟨k, isPass, passText⟩⟩
    obtain ⟨some_, rfl⟩ := fieldPointer_eq_some.mp isId
    obtain ⟨nonempty, rfl⟩ := fieldPointer_eq_some.mp isPass
    have size : loadLength m (2 + loadLength m 0) = certificate.length := size
    rw [size] at nonempty passText
    refine ⟨idText, some_, size, ?_, nonempty, passText⟩
    rcases eq_or_ne certificate [] with rfl | full
    · rfl
    · obtain ⟨j, isCert, content⟩ := cert full
      obtain ⟨-, rfl⟩ := fieldPointer_eq_some.mp isCert
      exact content
  · rintro ⟨idText, some_, size, content, nonempty, passText⟩
    refine ⟨⟨2, fieldPointer_eq_some.mpr ⟨some_, rfl⟩, idText⟩, size, fun full => ?_, ?_⟩
    · refine ⟨_, fieldPointer_eq_some.mpr ⟨?_, rfl⟩, content⟩
      rw [size]
      exact fun zero => full (List.length_eq_zero_iff.mp zero)
    · refine ⟨_, fieldPointer_eq_some.mpr ⟨?_, rfl⟩, ?_⟩
      · rwa [size]
      · rwa [size]

/-- The fields as one slice of memory. -/
theorem fieldsAt_iff (m : Bytes) (j : ℕ) (certificate : List UInt8) (passphrase : NulFree) :
    FieldsAt m j certificate passphrase.1 ↔ certificate.length < 65536 ∧
      ∃ low high : UInt8, ¬ (low = 0 ∧ high = 0) ∧
        slice m j (2 + (certificate.length + (2 + (passphrase.1.length + 1)))) =
          lengthBytes certificate.length ++ (certificate ++ ([low, high] ++ terminated passphrase.1)) := by
  have pieces : slice m j (2 + (certificate.length + (2 + (passphrase.1.length + 1)))) =
      slice m j 2 ++ (slice m (j + 2) certificate.length ++ (slice m (j + 2 + certificate.length) 2 ++
        slice m (j + 2 + certificate.length + 2) (passphrase.1.length + 1))) := by
    rw [slice_add, slice_add, slice_add]
  have zero : loadLength m (j + 2 + certificate.length) = 0 ↔
      m (j + 2 + certificate.length) = 0 ∧ m (j + 2 + certificate.length + 1) = 0 := by
    have first := (m (j + 2 + certificate.length)).toNat_lt
    simp only [loadLength, ← UInt8.toNat_inj, UInt8.toNat_zero]
    omega
  rw [pieces]
  constructor
  · rintro ⟨size, content, nonempty, passText⟩
    obtain ⟨fits, stored⟩ := (loadLength_eq_iff _ _ _).mp size
    refine ⟨fits, m (j + 2 + certificate.length), m (j + 2 + certificate.length + 1),
      fun both => nonempty (zero.mpr both), ?_⟩
    rw [stored, content, passText.1]
    rfl
  · rintro ⟨fits, low, high, nonzero, same⟩
    obtain ⟨stored, same⟩ := List.append_inj same (by simp)
    obtain ⟨content, same⟩ := List.append_inj same (by simp)
    obtain ⟨length, passText⟩ := List.append_inj same (by simp)
    obtain ⟨isLow, isHigh⟩ := List.cons.inj (show [m (j + 2 + certificate.length),
      m (j + 2 + certificate.length + 1)] = [low, high] from length)
    refine ⟨(loadLength_eq_iff _ _ _).mpr ⟨fits, stored⟩, content, fun isZero => ?_, passText, passphrase.2⟩
    obtain ⟨lowZero, highZero⟩ := zero.mp isZero
    exact nonzero ⟨isLow ▸ lowZero, (List.cons.inj isHigh).1 ▸ highZero⟩

/-- The fields behind known bytes are read off the bytes that follow. -/
theorem fieldsAt_holding (a t : List UInt8) (fresh : Bytes) (certificate : List UInt8)
    (passphrase : NulFree)
    (room : 2 + (certificate.length + (2 + (passphrase.1.length + 1))) ≤ t.length) :
    FieldsAt (holding (a ++ t) fresh) a.length certificate passphrase.1 ↔
      certificate.length < 65536 ∧ BeginsWithFields t certificate passphrase.1 := by
  have read : slice (holding (a ++ t) fresh) a.length
      (2 + (certificate.length + (2 + (passphrase.1.length + 1)))) =
        t.take (2 + (certificate.length + (2 + (passphrase.1.length + 1)))) := by
    rw [slice_holding_inside (by rw [List.length_append]; omega), List.drop_left]
  rw [fieldsAt_iff, read]
  refine and_congr_right fun _ => exists_congr fun low => exists_congr fun high =>
    and_congr_right fun _ => ?_
  rw [List.prefix_iff_eq_take, eq_comm]
  have length : (lengthBytes certificate.length ++ (certificate ++
      ([low, high] ++ terminated passphrase.1))).length =
        2 + (certificate.length + (2 + (passphrase.1.length + 1))) := by
    simp only [List.length_append, length_lengthBytes, length_terminated, List.length_cons,
      List.length_nil]
  rw [length]

/-- The fields as they are serialized begin with themselves, unless the length of the passphrase is
stored as zero. -/
theorem beginsWithFields_serialized (certificate : List UInt8) (passphrase : CStr) :
    BeginsWithFields (lengthBytes certificate.length ++ (certificate ++
        (lengthBytes (passphrase.length + 1) ++ terminated passphrase))) certificate passphrase ↔
      (passphrase.length + 1) % 65536 ≠ 0 := by
  have zero : (UInt8.ofNat ((passphrase.length + 1) % 256) = 0 ∧
      UInt8.ofNat ((passphrase.length + 1) / 256) = 0) ↔ (passphrase.length + 1) % 65536 = 0 := by
    simp only [← UInt8.toNat_inj, UInt8.toNat_ofNat', UInt8.toNat_zero, Nat.reducePow]
    omega
  constructor
  · rintro ⟨low, high, nonzero, isPrefix⟩ isZero
    have same := isPrefix.eq_of_length (by
      simp only [List.length_append, length_lengthBytes, length_terminated, List.length_cons,
        List.length_nil])
    have length := (List.append_inj (List.append_cancel_left (List.append_cancel_left same)) rfl).1
    obtain ⟨isLow, isHigh⟩ := List.cons.inj length
    obtain ⟨lowZero, highZero⟩ := zero.mpr isZero
    exact nonzero ⟨isLow.trans lowZero, (List.cons.inj isHigh).1.trans highZero⟩
  · intro nonzero
    exact ⟨_, _, fun both => nonzero (zero.mp both), List.prefix_refl _⟩

/-- The certificate and the passphrase are looked for behind the id, or inside it if it is too long. -/
theorem fieldsAt_serialized (serializedId : CStr) (certificate : List UInt8) (passphrase : NulFree)
    (fresh : Bytes) {fields : List UInt8}
    (isFields : fields = lengthBytes certificate.length ++ (certificate ++
      (lengthBytes (passphrase.1.length + 1) ++ terminated passphrase.1))) :
    FieldsAt
      (holding (lengthBytes (serializedId.length + 1) ++ (terminated serializedId ++ fields)) fresh)
      (2 + (serializedId.length + 1) % 65536) certificate passphrase.1 ↔ certificate.length < 65536 ∧
        if serializedId.length + 1 < 65536 then (passphrase.1.length + 1) % 65536 ≠ 0
        else BeginsWithFields
          (terminated (serializedId.drop ((serializedId.length + 1) % 65536)) ++ fields) certificate
          passphrase.1 := by
  have fieldsLength : fields.length = 2 + (certificate.length + (2 + (passphrase.1.length + 1))) := by
    simp [isFields]
  split_ifs with fits
  · have front : (lengthBytes (serializedId.length + 1) ++ terminated serializedId).length =
        2 + (serializedId.length + 1) % 65536 := by
      simp only [List.length_append, length_lengthBytes, length_terminated, Nat.mod_eq_of_lt fits]
    rw [← beginsWithFields_serialized certificate, ← isFields, ← List.append_assoc, ← front]
    exact fieldsAt_holding _ fields fresh certificate passphrase fieldsLength.ge
  · have inside : (serializedId.length + 1) % 65536 ≤ serializedId.length := by omega
    have front : (lengthBytes (serializedId.length + 1) ++
        serializedId.take ((serializedId.length + 1) % 65536)).length =
          2 + (serializedId.length + 1) % 65536 := by
      rw [List.length_append, length_lengthBytes, List.length_take_of_le inside]
    have split : terminated serializedId = serializedId.take ((serializedId.length + 1) % 65536) ++
        terminated (serializedId.drop ((serializedId.length + 1) % 65536)) := by
      rw [terminated, terminated, ← List.append_assoc, List.take_append_drop]
    rw [split, List.append_assoc (serializedId.take _), ← List.append_assoc, ← front]
    refine fieldsAt_holding _ _ fresh certificate passphrase ?_
    rw [List.length_append, fieldsLength]
    omega

theorem pkcs11h_roundTrips_iff (serializedId : NulFree) (certificate : List UInt8)
    (passphrase : NulFree) :
    RoundTrips (.pkcs11h serializedId certificate passphrase) ↔
      Fits (.pkcs11h serializedId certificate passphrase) := by
  set fields := lengthBytes certificate.length ++ (certificate ++
    (lengthBytes (passphrase.1.length + 1) ++ terminated passphrase.1)) with isFields
  set idLength := serializedId.1.length + 1 with isIdLength
  have sized : 1 + 1 + idLength + 1 + 1 + certificate.length + 1 + 1 + (passphrase.1.length + 1) =
      (lengthBytes idLength ++ (terminated serializedId.1 ++ fields)).length := by
    simp only [isFields, List.length_append, length_lengthBytes, length_terminated]
    omega
  have yields : ∀ fresh,
      (pkcs11hDeserialize (holding (lengthBytes idLength ++ (terminated serializedId.1 ++ fields)) fresh)).Yield
        (holding (lengthBytes idLength ++ (terminated serializedId.1 ++ fields)) fresh)
        serializedId.1 certificate passphrase.1 ↔ Fits (.pkcs11h serializedId certificate passphrase) := by
    intro fresh
    have length : loadLength (holding (lengthBytes idLength ++ (terminated serializedId.1 ++ fields)) fresh) 0 =
        idLength % 65536 := loadLength_holding [] _ _ fresh
    have idText : TextAt (holding (lengthBytes idLength ++ (terminated serializedId.1 ++ fields)) fresh) 2
        serializedId.1 := textAt_terminated (lengthBytes idLength) fields serializedId fresh
    rw [pkcs11h_yield_iff, length, fieldsAt_serialized serializedId.1 certificate passphrase fresh isFields]
    show _ ↔ certificate.length < 65536 ∧ if idLength < 65536 then (passphrase.1.length + 1) % 65536 ≠ 0
      else idLength % 65536 ≠ 0 ∧ BeginsWithFields (terminated (serializedId.1.drop (idLength % 65536)) ++
        fields) certificate passphrase.1
    split_ifs with fits
    · have some_ : idLength % 65536 ≠ 0 := by omega
      simp only [idText, some_, ne_eq, not_false_eq_true, true_and]
    · simp only [idText, true_and]
      exact and_left_comm
  constructor
  · rintro ⟨sized, done, isSized, isDone, -, -, -, yield⟩
    obtain rfl := Option.some.inj isDone
    exact (yields fun _ => 0).mp (yield fun _ => 0)
  · intro fits
    exact ⟨_, _, rfl, rfl, rfl, rfl, sized, fun fresh => (yields fresh).mpr fits⟩

/-- **When the blobs of the key modules come back.**  A module gets back from a blob what it was asked
to serialize exactly when the lengths fit into their two bytes, or a text that is too long looks like
the fields behind it. -/
theorem roundTrips_iff (b : KeyBlob) : RoundTrips b ↔ Fits b := by
  cases b with
  | openssl path passphrase => exact openssl_roundTrips_iff path passphrase
  | pkcs11h serializedId certificate passphrase =>
    exact pkcs11h_roundTrips_iff serializedId certificate passphrase

/-- A path with which the stored length starts again at zero. -/
def longPath : NulFree := ⟨List.replicate 65535 97, fun zero => by
  have isLetter : (0 : UInt8) = 97 := List.eq_of_mem_replicate zero
  exact absurd isLetter (by decide)⟩

/-- A path of 65535 bytes: the passphrase comes back as the rest of the path. -/
theorem roundTrips_fails : ¬ RoundTrips (.openssl longPath ⟨[112], by decide⟩) := by
  have length : longPath.1.length = 65535 := List.length_replicate
  intro trips
  have fits : longPath.1.length + 1 < 65536 ∨
      [112] = longPath.1.drop ((longPath.1.length + 1) % 65536 + 2) :=
    (openssl_roundTrips_iff longPath _).mp trips
  rcases fits with small | same
  · omega
  · have lengths := congrArg List.length same
    rw [List.length_drop, length] at lengths
    exact absurd lengths (by decide)

end Ecryptfs
