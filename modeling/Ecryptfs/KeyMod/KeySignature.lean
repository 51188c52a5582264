import Ecryptfs.Lib.BigEndian
import Ecryptfs.Lib.Memory

/-!
# Signatures of RSA keys

Each of the key modules for RSA keys names a key by the first eight bytes of a SHA-1 hash.  What is
hashed has the layout of an OpenPGP public key: a header with the length of the rest, then modulus and
exponent, each behind its length in bits.  The modules `openssl` and `pkcs11-helper` take the lengths
from OpenSSL's numbers; the module `tspi` takes them from byte strings, so that its exponent 65537,
which has 17 bits, is given 24.

Each buffer is modelled by the pieces that are written into it and the memory it held before.
-/

namespace Ecryptfs

open Memory

/-- A modulus as the bytes of the key, the top bit set. -/
structure Modulus where
  top : UInt8
  rest : List UInt8
  top_set : 128 ≤ top
  deriving DecidableEq

/-- The bytes of a modulus. -/
def Modulus.bytes (n : Modulus) : List UInt8 := n.top :: n.rest

/-- The number that a modulus is. -/
def Modulus.value (n : Modulus) : ℕ := BigEndian.ofBytes n.bytes

/-- `BN_num_bits`. -/
def bnNumBits (n : ℕ) : ℕ := Nat.size n

/-- `BN_bn2bin`. -/
def bnBn2bin (n : ℕ) : List UInt8 := BigEndian.toBytes n

/-- A number of bits as a number of bytes. -/
def bytesOfBits (bits : ℕ) : ℕ := if bits % 8 ≠ 0 then bits / 8 + 1 else bits / 8

/-- A buffer to be hashed: the size that is allocated, and the pieces that are written into it. -/
structure SigData where
  size : ℕ
  pieces : List (ℕ × List UInt8)

namespace SigData

/-- The bytes that are hashed, when the buffer is allocated over the given memory. -/
def hashed (data : SigData) (fresh : Bytes) : List UInt8 :=
  slice (writeAll fresh data.pieces) 0 data.size

/-- The pieces fill the buffer, one behind the other, to its end and not beyond. -/
def Exact (data : SigData) : Prop := Contiguous 0 data.pieces data.size

end SigData

/-- The buffer of a signature: the bits and the bytes of modulus and exponent are counted, and both
are copied to where the counts say. -/
def sigData (nbits nbytes ebits ebytes : ℕ) (n e : List UInt8) : SigData where
  size := 3 + (10 + nbytes + ebytes)
  pieces :=
    let len := 10 + nbytes + ebytes
    [(0, [0x99, UInt8.ofNat (len / 256), UInt8.ofNat len, 4, 0, 0, 0, 0, 2,
        UInt8.ofNat (nbits / 256), UInt8.ofNat nbits]),
      (11, n),
      (11 + nbytes, [UInt8.ofNat (ebits / 256), UInt8.ofNat ebits]),
      (11 + nbytes + 2, e)]

/-- What `ecryptfs_openssl_generate_signature` hashes for a key. -/
def opensslGenerateSignature (n e : ℕ) : SigData :=
  sigData (bnNumBits n) (bytesOfBits (bnNumBits n)) (bnNumBits e) (bytesOfBits (bnNumBits e))
    (bnBn2bin n) (bnBn2bin e)

/-- What `ecryptfs_pkcs11h_get_key_sig` hashes for a key. -/
def pkcs11hGetKeySig (n e : ℕ) : SigData :=
  sigData (bnNumBits n) (bytesOfBits (bnNumBits n)) (bnNumBits e) (bytesOfBits (bnNumBits e))
    (bnBn2bin n) (bnBn2bin e)

/-- The exponent of the keys in a TPM. -/
def tspiExponent : List UInt8 := [1, 0, 1]

/-- What `ecryptfs_tspi_generate_signature` hashes for the bytes of a modulus. -/
def tspiGenerateSignature (n : List UInt8) : SigData :=
  sigData (n.length * 8) n.length (tspiExponent.length * 8) tspiExponent.length n tspiExponent

/-! ## What is hashed -/

theorem Modulus.numBits (n : Modulus) : bnNumBits n.value = n.bytes.length * 8 := by
  have bits := BigEndian.size_ofBytes n.top_set n.rest
  rw [Nat.mul_comm] at bits
  exact bits

theorem Modulus.numBytes (n : Modulus) : bytesOfBits (bnNumBits n.value) = n.bytes.length := by
  rw [n.numBits, bytesOfBits]
  split_ifs <;> omega

theorem Modulus.bin (n : Modulus) : bnBn2bin n.value = n.bytes := by
  have nonzero : n.top ≠ 0 := by
    intro zero
    have set_ := n.top_set
    rw [zero] at set_
    exact absurd set_ (by decide)
  exact BigEndian.toBytes_ofBytes nonzero n.rest

theorem exponent_numBits : bnNumBits 65537 = 17 := by
  refine le_antisymm (Nat.size_le.mpr (by norm_num)) (Nat.lt_size.mpr (by norm_num))

theorem exponent_bin : bnBn2bin 65537 = tspiExponent := by
  have value : (65537 : ℕ) = BigEndian.ofBytes tspiExponent := rfl
  rw [bnBn2bin, value]
  exact BigEndian.toBytes_ofBytes (by decide) [0, 1]

/-- The counts of OpenSSL are those of the bytes of the modulus, with 17 bits for the exponent. -/
theorem openssl_eq (n : Modulus) : opensslGenerateSignature n.value 65537 =
    sigData (n.bytes.length * 8) n.bytes.length 17 tspiExponent.length n.bytes tspiExponent := by
  have bytes : bytesOfBits 17 = tspiExponent.length := rfl
  rw [opensslGenerateSignature, n.numBytes, n.numBits, n.bin, exponent_numBits, exponent_bin, bytes]

theorem pkcs11h_eq (n e : ℕ) : pkcs11hGetKeySig n e = opensslGenerateSignature n e := rfl

theorem sigData_exact {nbits nbytes ebits ebytes : ℕ} {n e : List UInt8} (modulus : n.length = nbytes)
    (exponent : e.length = ebytes) : (sigData nbits nbytes ebits ebytes n e).Exact := by
  subst modulus exponent
  refine ⟨rfl, rfl, rfl, rfl, ?_⟩
  show 0 + 11 + n.length + 2 + e.length = 3 + (10 + n.length + e.length)
  omega

/-- A buffer that is filled exactly holds its pieces. -/
theorem hashed_exact {data : SigData} (exact_ : data.Exact) (fresh : Bytes) :
    data.hashed fresh = data.pieces.flatMap Prod.snd := slice_writeAll exact_ fresh

/-- The bytes behind the modulus of a buffer that is filled exactly. -/
theorem hashed_sigData {nbits ebits : ℕ} {n e : List UInt8} (fresh : Bytes) :
    (sigData nbits n.length ebits e.length n e).hashed fresh =
      [0x99, UInt8.ofNat ((10 + n.length + e.length) / 256), UInt8.ofNat (10 + n.length + e.length),
        4, 0, 0, 0, 0, 2, UInt8.ofNat (nbits / 256), UInt8.ofNat nbits] ++ (n ++
        ([UInt8.ofNat (ebits / 256), UInt8.ofNat ebits] ++ e)) := by
  rw [hashed_exact (sigData_exact rfl rfl)]
  simp [sigData]

/-- What is hashed determines the modulus. -/
theorem hashed_modulus {nbits nbits' ebits : ℕ} {n n' e : List UInt8} {fresh fresh' : Bytes}
    (same : (sigData nbits n.length ebits e.length n e).hashed fresh =
      (sigData nbits' n'.length ebits e.length n' e).hashed fresh') : n = n' := by
  rw [hashed_sigData, hashed_sigData] at same
  have behind : n ++ ([UInt8.ofNat (ebits / 256), UInt8.ofNat ebits] ++ e) =
      n' ++ ([UInt8.ofNat (ebits / 256), UInt8.ofNat ebits] ++ e) := congrArg (List.drop 11) same
  exact List.append_cancel_right behind

/-- What is hashed determines the number of bits of the exponent. -/
theorem hashed_exponentBits {nbits nbits' ebits ebits' : ℕ} {n e : List UInt8} {fresh fresh' : Bytes}
    (same : (sigData nbits n.length ebits e.length n e).hashed fresh =
      (sigData nbits' n.length ebits' e.length n e).hashed fresh') :
    UInt8.ofNat ebits = UInt8.ofNat ebits' := by
  rw [hashed_sigData, hashed_sigData] at same
  have behind : n ++ ([UInt8.ofNat (ebits / 256), UInt8.ofNat ebits] ++ e) =
      n ++ ([UInt8.ofNat (ebits' / 256), UInt8.ofNat ebits'] ++ e) := congrArg (List.drop 11) same
  exact (List.cons.inj (List.cons.inj (List.append_cancel_left behind)).2).1

/-- The three modules hash the same bytes for a key with exponent 65537, fill their buffers exactly,
and hash different bytes for another modulus. -/
structure IdentifiedAlike (n : Modulus) : Prop where
  openssl_pkcs11h : ∀ fresh fresh', (opensslGenerateSignature n.value 65537).hashed fresh =
    (pkcs11hGetKeySig n.value 65537).hashed fresh'
  pkcs11h_tspi : ∀ fresh fresh', (pkcs11hGetKeySig n.value 65537).hashed fresh =
    (tspiGenerateSignature n.bytes).hashed fresh'
  exact_ : (opensslGenerateSignature n.value 65537).Exact ∧
    (pkcs11hGetKeySig n.value 65537).Exact ∧ (tspiGenerateSignature n.bytes).Exact
  apart : ∀ n' : Modulus, 8 * n.bytes.length < 65536 → 8 * n'.bytes.length < 65536 → n ≠ n' →
    ∀ fresh fresh', (opensslGenerateSignature n.value 65537).hashed fresh ≠
      (opensslGenerateSignature n'.value 65537).hashed fresh'

/-- The bytes that `tspi` hashes are never those of the other modules. -/
theorem tspi_ne_openssl (n : Modulus) (fresh fresh' : Bytes) :
    (opensslGenerateSignature n.value 65537).hashed fresh ≠
      (tspiGenerateSignature n.bytes).hashed fresh' := by
  intro same
  rw [openssl_eq] at same
  exact absurd (hashed_exponentBits same) (by decide)

/-- The modules `openssl` and `pkcs11-helper` hash the same bytes for every key, each of the three
fills its buffer exactly, and each tells the moduli apart. -/
structure IdentifiedApart (n : Modulus) : Prop where
  openssl_pkcs11h : ∀ fresh fresh', (opensslGenerateSignature n.value 65537).hashed fresh =
    (pkcs11hGetKeySig n.value 65537).hashed fresh'
  exact_ : (opensslGenerateSignature n.value 65537).Exact ∧
    (pkcs11hGetKeySig n.value 65537).Exact ∧ (tspiGenerateSignature n.bytes).Exact
  apart : ∀ n' : Modulus, n ≠ n' → ∀ fresh fresh',
    (opensslGenerateSignature n.value 65537).hashed fresh ≠
        (opensslGenerateSignature n'.value 65537).hashed fresh' ∧
      (tspiGenerateSignature n.bytes).hashed fresh ≠ (tspiGenerateSignature n'.bytes).hashed fresh'

theorem Modulus.ext_bytes {n n' : Modulus} (same : n.bytes = n'.bytes) : n = n' := by
  obtain ⟨top, rest, set_⟩ := n
  obtain ⟨top', rest', set_'⟩ := n'
  obtain ⟨rfl, rfl⟩ := List.cons.inj same
  rfl

theorem identifiedApart (n : Modulus) : IdentifiedApart n where
  openssl_pkcs11h fresh fresh' := by
    rw [pkcs11h_eq, openssl_eq, hashed_sigData, hashed_sigData]
  exact_ := by
    have openssl : (opensslGenerateSignature n.value 65537).Exact := by
      rw [openssl_eq]
      exact sigData_exact rfl rfl
    exact ⟨openssl, by rwa [pkcs11h_eq], sigData_exact rfl rfl⟩
  apart n' differs fresh fresh' := by
    refine ⟨fun same => differs (Modulus.ext_bytes ?_), fun same => differs (Modulus.ext_bytes ?_)⟩
    · rw [openssl_eq, openssl_eq] at same
      exact hashed_modulus same
    · exact hashed_modulus same

/-- **The three modules never identify a key alike.**  Whatever the modulus, `tspi` hashes other bytes
than `openssl` and `pkcs11-helper`, which agree; all else that is asked for holds. -/
theorem not_identifiedAlike (n : Modulus) : ¬ IdentifiedAlike n ∧ IdentifiedApart n := by
  refine ⟨fun alike => ?_, identifiedApart n⟩
  have same := (alike.openssl_pkcs11h (fun _ => 0) fun _ => 0).trans
    (alike.pkcs11h_tspi (fun _ => 0) fun _ => 0)
  exact tspi_ne_openssl n _ _ same

/-- The shortest modulus, with the bytes that `openssl` and `tspi` hash for it. -/
theorem identified_differently :
    (opensslGenerateSignature (Modulus.mk 193 [] (by decide)).value 65537).hashed (fun _ => 0) =
        [0x99, 0, 14, 4, 0, 0, 0, 0, 2, 0, 8, 193, 0, 17, 1, 0, 1] ∧
      (tspiGenerateSignature (Modulus.mk 193 [] (by decide)).bytes).hashed (fun _ => 0) =
        [0x99, 0, 14, 4, 0, 0, 0, 0, 2, 0, 8, 193, 0, 24, 1, 0, 1] ∧
      ¬ ∀ n : Modulus, IdentifiedAlike n := by
  refine ⟨?_, rfl, fun alike => ?_⟩
  · rw [openssl_eq]
    rfl
  · have n : Modulus := ⟨193, [], by decide⟩
    have same := ((alike n).openssl_pkcs11h (fun _ => 0) fun _ => 0).trans
      ((alike n).pkcs11h_tspi (fun _ => 0) fun _ => 0)
    exact tspi_ne_openssl n _ _ same

end Ecryptfs
