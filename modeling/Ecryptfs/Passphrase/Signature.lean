import Ecryptfs.CString

/-!
# Keys and signatures from passphrases

`generatePassphraseSig` stretches a salt and a passphrase into the 64 bytes of a key-encryption key
by iterating SHA-512, and names the key by the hexadecimal text of the first eight bytes of one more
hash.  The hash and the cipher belong to NSS, so they are the fields of a structure `Nss`; every
call into NSS may fail.  The length of the passphrase is kept in an `int`, so that `generatePassphraseSigInt`
signs no more of it than the `int` says.
-/

namespace Ecryptfs

def maxPassphraseBytes : ℕ := 64
def sigSize : ℕ := 8
def sigSizeHex : ℕ := 16
def maxKeyBytes : ℕ := 64
def aesBlockSize : ℕ := 16
def aesKeyBytes : ℕ := 16
def defaultNumHashIterations : ℕ := 65536

/-- A SHA-512 digest. -/
abbrev Digest := Vector UInt8 64

abbrev Salt := Vector UInt8 8

/-- What the library uses of NSS.  `hashOk k` tells whether the call number `k` of `PK11_HashBuf`
succeeds; `encrypt` and `decrypt` are `PK11_CipherOp` on an AES-ECB context for a 16-byte key, and
`encryptFinal` and `decryptFinal` the `PK11_DigestFinal` that closes the context. -/
structure Nss where
  sha512 : List UInt8 → Digest
  hashOk : ℕ → Bool
  importSymKey : List UInt8 → Bool
  encrypt : List UInt8 → List UInt8 → Option (List UInt8)
  encryptFinal : List UInt8 → Option (List UInt8)
  decrypt : List UInt8 → List UInt8 → Option (List UInt8)
  decryptFinal : List UInt8 → Option (List UInt8)

/-- The lower-case hexadecimal digit for `n < 16`. -/
def hexDigit (n : ℕ) : UInt8 := if n < 10 then UInt8.ofNat (48 + n) else UInt8.ofNat (87 + n)

/-- `to_hex`. -/
def toHex (src : List UInt8) : CStr :=
  src.flatMap fun b => [hexDigit (b.toNat / 16), hexDigit (b.toNat % 16)]

theorem length_toHex (src : List UInt8) : (toHex src).length = 2 * src.length := by
  induction src with
  | nil => rfl
  | cons b src ih =>
    rw [toHex, List.flatMap_cons, List.length_append, ← toHex, ih]
    simp only [List.length_cons, List.length_nil]
    omega

theorem toHex_append (a b : List UInt8) : toHex (a ++ b) = toHex a ++ toHex b := List.flatMap_append

theorem take_toHex (src : List UInt8) (n : ℕ) : (toHex src).take (2 * n) = toHex (src.take n) := by
  induction n generalizing src with
  | zero => rfl
  | succ n ih =>
    cases src with
    | nil => rfl
    | cons b src =>
      have rest : (toHex (b :: src)).take (2 * (n + 1)) = toHex [b] ++ (toHex src).take (2 * n) := rfl
      rw [rest, ih]
      rfl

theorem drop_toHex (src : List UInt8) (n : ℕ) : (toHex src).drop (2 * n) = toHex (src.drop n) := by
  induction n generalizing src with
  | zero => rfl
  | succ n ih =>
    cases src with
    | nil => rfl
    | cons b src => exact ih src

/-- The digits that `toHex` writes. -/
def hexDigits : CStr := "0123456789abcdef"

theorem toHex_hexDigits (src : List UInt8) : ∀ c ∈ toHex src, c ∈ hexDigits := by
  have digit : ∀ n < 16, hexDigit n ∈ hexDigits := by decide
  intro c among
  obtain ⟨b, -, isDigit⟩ := List.mem_flatMap.mp among
  have bound : b.toNat < 256 := b.toNat_lt
  rcases List.mem_cons.mp isDigit with rfl | isLow
  · exact digit _ (by omega)
  · rw [List.mem_singleton.mp isLow]
    exact digit _ (by omega)

/-- The digits and a terminator are a C string. -/
theorem cString_toHex (src : List UInt8) : cString (toHex src ++ [0]) = toHex src := by
  have noNul : 0 ∉ toHex src := by
    intro among
    exact absurd (toHex_hexDigits src 0 among) (by decide)
  rw [← List.replicate_one, cString_append_zeros, cString_of_notMem noNul]

section

variable (nss : Nss)

/-- `do_hash`, as the hash call number `k`. -/
def doHash (k : ℕ) (src : List UInt8) : Except ℤ Digest :=
  if nss.hashOk k then .ok (nss.sha512 src) else .error (-einval)

/-- The `while (hash_iterations--)` loop: `n` hashes of the buffer, the first of them call `k`. -/
def hashLoop : ℕ → ℕ → Digest → Except ℤ Digest
  | 0, _, buf => .ok buf
  | n + 1, k, buf => do
      let buf ← doHash nss k buf.toList
      hashLoop n (k + 1) buf

/-- What `generate_passphrase_sig` fills in on success. -/
structure PassphraseSig where
  sig : CStr
  fekek : Digest

/-- `generate_passphrase_sig`, on the `passphrase_size` bytes that it takes for the passphrase. -/
def generatePassphraseSig (salt : Salt) (passphrase : CStr) : Except ℤ PassphraseSig :=
  if maxPassphraseBytes < passphrase.length then .error (-einval)
  else do
    let buf ← doHash nss 0 (salt.toList ++ passphrase)
    let fekek ← hashLoop nss (defaultNumHashIterations - 1) 1 buf
    let last ← doHash nss defaultNumHashIterations fekek.toList
    .ok { sig := toHex (last.toList.take sigSize), fekek }

end

/-- The length of a passphrase, which is kept in an `int`. -/
def passphraseSize (passphrase : CStr) : ℤ := Int.bmod passphrase.length (2 ^ 32)

/-- The part of the passphrase that the `int` reaches. -/
def reachedPart (passphrase : CStr) : CStr := passphrase.take (passphraseSize passphrase).toNat

section

variable (nss : Nss)

/-- `generate_passphrase_sig`, or `none` if it copies a negative number of bytes. -/
def generatePassphraseSigInt (salt : Salt) (passphrase : CStr) : Option (Except ℤ PassphraseSig) :=
  if passphraseSize passphrase < 0 then none
  else some (generatePassphraseSig nss salt (reachedPart passphrase))

/-! ## Outcomes -/

/-- The loop succeeds if and only if all its calls do. -/
theorem hashLoop_eq (n k : ℕ) (buf : Digest) :
    hashLoop nss n k buf =
      if ∀ j < n, nss.hashOk (k + j) = true then .ok ((fun b => nss.sha512 b.toList)^[n] buf)
      else .error (-einval) := by
  induction n generalizing k buf with
  | zero => rw [hashLoop, if_pos (by simp), Function.iterate_zero_apply]
  | succ n ih =>
    have calls : (∀ j < n + 1, nss.hashOk (k + j) = true) ↔
        nss.hashOk k = true ∧ ∀ j < n, nss.hashOk (k + 1 + j) = true := by
      rw [Nat.forall_lt_succ_left, Nat.add_zero]
      simp only [Nat.add_assoc, Nat.add_comm 1]
    by_cases first : nss.hashOk k = true
    · have call : doHash nss k buf.toList = .ok (nss.sha512 buf.toList) := if_pos first
      rw [hashLoop, call, Function.iterate_succ_apply]
      refine (ih (k + 1) _).trans ?_
      simp only [calls, first, true_and]
    · have call : doHash nss k buf.toList = .error (-einval) := if_neg first
      rw [hashLoop, call, if_neg fun all => first (calls.mp all).1]
      rfl

/-- What `generate_passphrase_sig` does with a passphrase that fits: it succeeds if all hash calls do. -/
theorem generatePassphraseSig_fits (salt : Salt) {passphrase : CStr}
    (fits : passphrase.length ≤ maxPassphraseBytes) :
    let fekek := (fun b => nss.sha512 b.toList)^[defaultNumHashIterations - 1]
      (nss.sha512 (salt.toList ++ passphrase))
    generatePassphraseSig nss salt passphrase =
      if ∀ k ≤ defaultNumHashIterations, nss.hashOk k = true then
        .ok ⟨toHex ((nss.sha512 fekek.toList).toList.take sigSize), fekek⟩
      else .error (-einval) := by
  intro fekek
  have some_ : 0 < defaultNumHashIterations := by decide
  rw [generatePassphraseSig, if_neg (not_lt.mpr fits)]
  by_cases first : nss.hashOk 0 = true
  · have call : doHash nss 0 (salt.toList ++ passphrase) =
        .ok (nss.sha512 (salt.toList ++ passphrase)) := if_pos first
    rw [call]
    by_cases loop : ∀ j < defaultNumHashIterations - 1, nss.hashOk (1 + j) = true
    · have looped : hashLoop nss (defaultNumHashIterations - 1) 1
          (nss.sha512 (salt.toList ++ passphrase)) = .ok fekek := by
        rw [hashLoop_eq, if_pos loop]
      simp only [bind, Except.bind, looped]
      by_cases last : nss.hashOk defaultNumHashIterations = true
      · have call : doHash nss defaultNumHashIterations fekek.toList =
            .ok (nss.sha512 fekek.toList) := if_pos last
        rw [call, if_pos]
        intro k le
        rcases Nat.eq_zero_or_pos k with rfl | positive
        · exact first
        · rcases le.lt_or_eq with less | rfl
          · have := loop (k - 1) (by omega)
            rwa [Nat.add_sub_cancel' positive] at this
          · exact last
      · have call : doHash nss defaultNumHashIterations fekek.toList = .error (-einval) := if_neg last
        rw [call, if_neg fun all => last (all _ le_rfl)]
    · have looped : hashLoop nss (defaultNumHashIterations - 1) 1
          (nss.sha512 (salt.toList ++ passphrase)) = .error (-einval) := by
        rw [hashLoop_eq, if_neg loop]
      simp only [bind, Except.bind, looped]
      rw [if_neg fun all => loop fun j less => all (1 + j) (by omega)]
  · have call : doHash nss 0 (salt.toList ++ passphrase) = .error (-einval) := if_neg first
    rw [call, if_neg fun all => first (all 0 (Nat.zero_le _))]
    rfl

/-- With every hash call succeeding, a passphrase that fits yields the key that the loop ends with, and
the signature of that key. -/
theorem generatePassphraseSig_eq (ok : ∀ k, nss.hashOk k = true) (salt : Salt) {passphrase : CStr}
    (fits : passphrase.length ≤ maxPassphraseBytes) :
    let fekek := (fun b => nss.sha512 b.toList)^[defaultNumHashIterations - 1]
      (nss.sha512 (salt.toList ++ passphrase))
    generatePassphraseSig nss salt passphrase =
      .ok ⟨toHex ((nss.sha512 fekek.toList).toList.take sigSize), fekek⟩ := by
  intro fekek
  rw [generatePassphraseSig_fits nss salt fits, if_pos fun k _ => ok k]

theorem generatePassphraseSig_ok (ok : ∀ k, nss.hashOk k = true) (salt : Salt) {passphrase : CStr}
    (fits : passphrase.length ≤ maxPassphraseBytes) :
    ∃ s, generatePassphraseSig nss salt passphrase = .ok s :=
  ⟨_, generatePassphraseSig_eq nss ok salt fits⟩

/-- A passphrase that does not fit is refused. -/
theorem generatePassphraseSig_long (salt : Salt) {passphrase : CStr}
    (long : maxPassphraseBytes < passphrase.length) :
    generatePassphraseSig nss salt passphrase = .error (-einval) := if_pos long

/-- The only error of `generate_passphrase_sig` is `-einval`. -/
theorem generatePassphraseSig_error {salt : Salt} {passphrase : CStr} {rc : ℤ}
    (failed : generatePassphraseSig nss salt passphrase = .error rc) : rc = -einval := by
  rcases le_or_gt passphrase.length maxPassphraseBytes with fits | long
  · rw [generatePassphraseSig_fits nss salt fits] at failed
    split_ifs at failed
    exact (Except.error.inj failed).symm
  · rw [generatePassphraseSig_long nss salt long] at failed
    exact (Except.error.inj failed).symm

/-- The signature is the text of eight bytes. -/
theorem generatePassphraseSig_toHex {salt : Salt} {passphrase : CStr} {s : PassphraseSig}
    (done : generatePassphraseSig nss salt passphrase = .ok s) :
    ∃ last : Digest, s.sig = toHex (last.toList.take sigSize) := by
  rcases le_or_gt passphrase.length maxPassphraseBytes with fits | long
  · rw [generatePassphraseSig_fits nss salt fits] at done
    split_ifs at done
    obtain rfl := Except.ok.inj done
    exact ⟨_, rfl⟩
  · rw [generatePassphraseSig_long nss salt long] at done
    cases done

/-- The signature text has sixteen characters. -/
theorem generatePassphraseSig_length {salt : Salt} {passphrase : CStr} {s : PassphraseSig}
    (done : generatePassphraseSig nss salt passphrase = .ok s) : s.sig.length = sigSizeHex := by
  obtain ⟨last, isSig⟩ := generatePassphraseSig_toHex nss done
  rw [isSig]
  simp [length_toHex, sigSize, sigSizeHex]

/-! ## The length of the passphrase -/

theorem passphraseSize_of_lt {passphrase : CStr} (short : passphrase.length < 2 ^ 31) :
    passphraseSize passphrase = passphrase.length := by
  unfold passphraseSize
  exact bmod_length short

theorem passphraseSize_of_fits {passphrase : CStr} (fits : passphrase.length ≤ maxPassphraseBytes) :
    passphraseSize passphrase = passphrase.length := by
  unfold maxPassphraseBytes at fits
  exact passphraseSize_of_lt (by omega)

/-- Which lengths are seen to be too large. -/
theorem lt_passphraseSize (passphrase : CStr) :
    (maxPassphraseBytes : ℤ) < passphraseSize passphrase ↔
      maxPassphraseBytes < passphrase.length % 2 ^ 32 ∧ passphrase.length % 2 ^ 32 < 2 ^ 31 := by
  unfold maxPassphraseBytes passphraseSize
  rw [Int.bmod_def]
  split_ifs with upper <;> omega

theorem passphraseSize_nonneg (passphrase : CStr) :
    0 ≤ passphraseSize passphrase ↔ passphrase.length % 2 ^ 32 < 2 ^ 31 := by
  unfold passphraseSize
  rw [Int.bmod_def]
  split_ifs with upper <;> omega

/-- The part that is reached has as many bytes as the `int` says. -/
theorem length_reachedPart (passphrase : CStr) :
    (reachedPart passphrase).length = (passphraseSize passphrase).toNat := by
  rw [reachedPart, List.length_take, Nat.min_eq_left]
  unfold passphraseSize
  rw [Int.bmod_def]
  split_ifs with upper <;> omega

theorem length_reachedPart_mod {passphrase : CStr} (nonneg : 0 ≤ passphraseSize passphrase) :
    (reachedPart passphrase).length = passphrase.length % 2 ^ 32 := by
  rw [length_reachedPart]
  have upper := (passphraseSize_nonneg passphrase).mp nonneg
  unfold passphraseSize
  rw [Int.bmod_def, if_pos (by omega)]
  omega

/-- A passphrase whose length the `int` holds is reached as a whole. -/
theorem reachedPart_of_lt {passphrase : CStr} (short : passphrase.length < 2 ^ 31) :
    reachedPart passphrase = passphrase := by
  rw [reachedPart, passphraseSize_of_lt short, Int.toNat_natCast, List.take_length]

theorem reachedPart_of_fits {passphrase : CStr} (fits : passphrase.length ≤ maxPassphraseBytes) :
    reachedPart passphrase = passphrase := by
  unfold maxPassphraseBytes at fits
  exact reachedPart_of_lt (by omega)

/-- A passphrase whose length the `int` holds is signed as a whole. -/
theorem generatePassphraseSigInt_of_lt (salt : Salt) {passphrase : CStr} (short : passphrase.length < 2 ^ 31) :
    generatePassphraseSigInt nss salt passphrase = some (generatePassphraseSig nss salt passphrase) := by
  rw [generatePassphraseSigInt, reachedPart_of_lt short, if_neg]
  rw [passphraseSize_of_lt short]
  exact not_lt.mpr (Int.natCast_nonneg _)

theorem generatePassphraseSigInt_of_fits (salt : Salt) {passphrase : CStr}
    (fits : passphrase.length ≤ maxPassphraseBytes) :
    generatePassphraseSigInt nss salt passphrase = some (generatePassphraseSig nss salt passphrase) := by
  unfold maxPassphraseBytes at fits
  exact generatePassphraseSigInt_of_lt nss salt (by omega)

theorem generatePassphraseSigInt_of_nonneg (salt : Salt) {passphrase : CStr}
    (nonneg : 0 ≤ passphraseSize passphrase) :
    generatePassphraseSigInt nss salt passphrase =
      some (generatePassphraseSig nss salt (reachedPart passphrase)) := if_neg (not_lt.mpr nonneg)

end

end Ecryptfs
