import Ecryptfs.CString
import Ecryptfs.Lib.Memory

/-!
# Packet lengths

`writePacketLength` and `parsePacketLength` are the two sides of the one- or two-byte length that
precedes a part of a packet.  The writer stores its bytes through a `char` and accepts every size
below 65536; the parser knows only first bytes below 224.
-/

namespace Ecryptfs

open Memory

/-- `ecryptfs_write_packet_length`: the bytes written to `dest`; their number is the
`packet_size_length`. -/
def writePacketLength (size : ℕ) : Except ℤ (List UInt8) :=
  if size < 192 then .ok [UInt8.ofNat size]
  else if size < 65536 then
    .ok [UInt8.ofNat ((size - 192) / 256 + 192), UInt8.ofNat ((size - 192) % 256)]
  else .error (-einval)

/-- What `ecryptfs_parse_packet_length` returns on success. -/
structure PacketLength where
  size : ℕ
  lengthSize : ℕ
  deriving DecidableEq, Repr

/-- `ecryptfs_parse_packet_length` on the memory at `data`. -/
def parsePacketLength (data : Bytes) : Except ℤ PacketLength :=
  if (data 0).toNat < 192 then .ok ⟨(data 0).toNat, 1⟩
  else if (data 0).toNat < 224 then
    .ok ⟨((data 0).toNat - 192) * 256 + ((data 1).toNat + 192), 2⟩
  -- a five-byte length is not supported, and neither is any other first byte
  else .error (-einval)

/-- The number of bytes that `ecryptfs_parse_packet_length` looks at. -/
def packetLengthReads (data : Bytes) : ℕ :=
  if (data 0).toNat < 192 then 1 else if (data 0).toNat < 224 then 2 else 1

/-! ## What the parser accepts -/

theorem parsePacketLength_one {data : Bytes} (h : (data 0).toNat < 192) :
    parsePacketLength data = .ok ⟨(data 0).toNat, 1⟩ := if_pos h

theorem parsePacketLength_two {data : Bytes} (low : 192 ≤ (data 0).toNat)
    (high : (data 0).toNat < 224) : parsePacketLength data =
      .ok ⟨((data 0).toNat - 192) * 256 + ((data 1).toNat + 192), 2⟩ := by
  rw [parsePacketLength, if_neg (not_lt.mpr low), if_pos high]

theorem parsePacketLength_error {data : Bytes} {rc : ℤ} (h : parsePacketLength data = .error rc) :
    rc = -einval := by
  unfold parsePacketLength at h
  split_ifs at h
  exact (Except.error.inj h).symm

/-- The parser only looks at the bytes it counts. -/
theorem parsePacketLength_congr {data data' : Bytes} (first : data 0 = data' 0)
    (second : packetLengthReads data = 2 → data 1 = data' 1) :
    parsePacketLength data = parsePacketLength data' := by
  unfold parsePacketLength packetLengthReads at *
  rw [← first]
  split_ifs with one two
  · rfl
  · rw [second (by rw [if_neg one, if_pos two])]
  · rfl

theorem parsePacketLength_ok {data : Bytes} {p : PacketLength} (h : parsePacketLength data = .ok p) :
    p.lengthSize = packetLengthReads data ∧ p.size < 8384 ∧ 1 ≤ p.lengthSize ∧ p.lengthSize ≤ 2 := by
  have := (data 1).toNat_lt
  unfold parsePacketLength packetLengthReads at *
  split_ifs at h ⊢ with one two
  · obtain rfl := Except.ok.inj h
    refine ⟨rfl, ?_, le_rfl, one_le_two⟩
    show (data 0).toNat < 8384
    omega
  · obtain rfl := Except.ok.inj h
    refine ⟨rfl, ?_, one_le_two, le_rfl⟩
    show ((data 0).toNat - 192) * 256 + ((data 1).toNat + 192) < 8384
    omega

/-! ## Agreement of the two sides -/

theorem writePacketLength_one {n : ℕ} (h : n < 192) :
    writePacketLength n = .ok [UInt8.ofNat n] := if_pos h

theorem writePacketLength_two {n : ℕ} (low : 192 ≤ n) (high : n < 65536) : writePacketLength n =
    .ok [UInt8.ofNat ((n - 192) / 256 + 192), UInt8.ofNat ((n - 192) % 256)] := by
  rw [writePacketLength, if_neg (not_lt.mpr low), if_pos high]

/-- A length that the parser accepts is the only one the writer encodes so. -/
theorem write_parse_packetLength {data : Bytes} {p : PacketLength}
    (h : parsePacketLength data = .ok p) :
    writePacketLength p.size = .ok (slice data 0 p.lengthSize) := by
  have h1 := (data 1).toNat_lt
  unfold parsePacketLength at h
  split_ifs at h with one two
  · obtain rfl := Except.ok.inj h
    simp only at *
    rw [writePacketLength_one one, slice_one, UInt8.ofNat_toNat]
  · obtain rfl := Except.ok.inj h
    simp only at *
    rw [writePacketLength_two (by omega) (by omega), slice_add data 0 1 1, slice_one, slice_one]
    have quotient : (((data 0).toNat - 192) * 256 + ((data 1).toNat + 192) - 192) / 256 + 192 =
        (data 0).toNat := by omega
    have remainder : (((data 0).toNat - 192) * 256 + ((data 1).toNat + 192) - 192) % 256 =
        (data 1).toNat := by omega
    rw [quotient, remainder, UInt8.ofNat_toNat, UInt8.ofNat_toNat]
    rfl

/-- A size below 8384 is read back from its bytes, whatever follows. -/
theorem parse_written {n : ℕ} {bytes : List UInt8} (beyond : Bytes)
    (written : writePacketLength n = .ok bytes) (small : n < 8384) :
    parsePacketLength (holding bytes beyond) = .ok ⟨n, bytes.length⟩ := by
  unfold writePacketLength at written
  unfold parsePacketLength
  split_ifs at written with one two
  · obtain rfl := Except.ok.inj written
    simp [holding, UInt8.toNat_ofNat', Nat.mod_eq_of_lt (show n < 256 by omega), one]
  · obtain rfl := Except.ok.inj written
    have first : ((n - 192) / 256 + 192) % 256 = (n - 192) / 256 + 192 := Nat.mod_eq_of_lt (by omega)
    have low : ¬ (n - 192) / 256 + 192 < 192 := by omega
    have high : (n - 192) / 256 + 192 < 224 := by omega
    simp only [holding, List.getD_cons_zero, List.getD_cons_succ, UInt8.toNat_ofNat', Nat.reducePow, first,
      Nat.mod_mod, if_neg low, if_pos high, List.length_cons, List.length_nil, Except.ok.injEq,
      PacketLength.mk.injEq, and_true]
    omega

/-- **When writer and parser agree.**  A size that the writer accepts is read back, whatever follows,
exactly when it is below 8384. -/
theorem parse_write_packetLength_iff {n : ℕ} {bytes : List UInt8} (beyond : Bytes)
    (written : writePacketLength n = .ok bytes) :
    parsePacketLength (holding bytes beyond) = .ok ⟨n, bytes.length⟩ ↔ n < 8384 := by
  constructor
  · intro parsed
    exact (parsePacketLength_ok parsed).2.1
  · intro small
    by_cases one : n < 192
    · rw [writePacketLength_one one] at written
      obtain rfl := Except.ok.inj written
      have first : (UInt8.ofNat n).toNat = n := by
        rw [UInt8.toNat_ofNat', Nat.mod_eq_of_lt (by omega)]
      rw [parsePacketLength_one (by rw [holding_cons_zero, first]; exact one), holding_cons_zero, first]
      rfl
    · rw [writePacketLength_two (by omega) (by omega)] at written
      obtain rfl := Except.ok.inj written
      have first : (UInt8.ofNat ((n - 192) / 256 + 192)).toNat = (n - 192) / 256 + 192 := by
        rw [UInt8.toNat_ofNat', Nat.mod_eq_of_lt (by omega)]
      have second : (UInt8.ofNat ((n - 192) % 256)).toNat = (n - 192) % 256 := by
        rw [UInt8.toNat_ofNat', Nat.mod_eq_of_lt (by omega)]
      rw [parsePacketLength_two (by rw [holding_cons_zero, first]; omega)
        (by rw [holding_cons_zero, first]; omega), holding_cons_zero, first, holding_cons_succ,
        holding_cons_zero, second]
      have value : ((n - 192) / 256 + 192 - 192) * 256 + ((n - 192) % 256 + 192) = n := by omega
      rw [value]
      rfl

theorem packetLength_300 : parsePacketLength (holding [192, 108] fun _ => 7) = .ok ⟨300, 2⟩ :=
  (parse_write_packetLength_iff (fun _ => 7) (show writePacketLength 300 = .ok [192, 108] from rfl)).mpr
    (by decide)

/-- The smallest size on which writer and parser part. -/
theorem packetLength_8384 : ¬ ∀ (n : ℕ) (bytes : List UInt8) (beyond : Bytes),
    writePacketLength n = .ok bytes →
      parsePacketLength (holding bytes beyond) = .ok ⟨n, bytes.length⟩ := by
  intro agree
  have parsed := agree 8384 [224, 0] (fun _ => 0) rfl
  have refused : parsePacketLength (holding [224, 0] fun _ => 0) = .error (-einval) := rfl
  rw [refused] at parsed
  cases parsed

end Ecryptfs
