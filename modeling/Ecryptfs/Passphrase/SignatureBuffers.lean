import Ecryptfs.Lib.Memory
import Ecryptfs.Passphrase.Signature

/-!
# The buffers of a signature

`generate_passphrase_sig` gets two buffers from its caller: the key goes into one of them before the
last hash, the text of the signature into the other one after it.  The length of the passphrase is kept
in an `int`, so a passphrase of 4 GiB and a bit passes for the bit at its beginning
(`signs_iff`).
-/

namespace Ecryptfs

open Memory

/-- The buffers for the text of the signature and for the key. -/
structure SigBuffers where
  sig : Bytes
  fekek : Bytes

/-- `to_hex` into a buffer: `sprintf` ends each pair of digits with a NUL, and there is one more at the
end. -/
def toHexInto (dst : Bytes) (src : List UInt8) : Bytes :=
  write ((List.range src.length).foldl
    (fun dst x => write dst (x * 2) (toHex [src.getD x 0] ++ [0])) dst) (src.length * 2) [0]

section

variable (nss : Nss)

/-- `generate_passphrase_sig` with its buffers, or `none` if it copies a negative number of bytes. -/
def generatePassphraseSigInto (bufs : SigBuffers) (salt : Salt) (passphrase : CStr) :
    Option (ℤ × SigBuffers) :=
  if passphraseSize passphrase > maxPassphraseBytes then some (-einval, bufs)
  else if passphraseSize passphrase < 0 then none
  else
    let saltAndPassphrase := salt.toList ++ passphrase.take (passphraseSize passphrase).toNat
    match doHash nss 0 saltAndPassphrase with
    | .error rc => some (rc, bufs)
    | .ok buf =>
      match hashLoop nss (defaultNumHashIterations - 1) 1 buf with
      | .error rc => some (rc, bufs)
      | .ok buf =>
        let bufs := { bufs with fekek := write bufs.fekek 0 buf.toList }
        match doHash nss defaultNumHashIterations buf.toList with
        | .error rc => some (rc, bufs)
        | .ok buf => some (0, { bufs with sig := toHexInto bufs.sig (buf.toList.take sigSize) })

/-- The hash, which yields 64 bytes. -/
def Nss.hash (src : List UInt8) : List UInt8 := (nss.sha512 src).toList

end

/-- With a passphrase that fits and every hash succeeding, the key is the hash iterated over salt and
passphrase, and the signature the text of the first bytes of one more hash.  With a longer passphrase, or
if a hash fails, there is an error and the buffer of the signature stays as it is. -/
structure Signs (passphrase : CStr) : Prop where
  signed : passphrase.length ≤ maxPassphraseBytes → ∀ nss : Nss,
    (∀ k ≤ defaultNumHashIterations, nss.hashOk k = true) → ∀ (bufs : SigBuffers) (salt : Salt),
      let fekek := nss.hash^[defaultNumHashIterations] (salt.toList ++ passphrase)
      generatePassphraseSigInto nss bufs salt passphrase =
        some (0, { sig := write bufs.sig 0 (toHex ((nss.hash fekek).take sigSize) ++ [0])
                   fekek := write bufs.fekek 0 fekek })
  refused : ∀ nss : Nss, (maxPassphraseBytes < passphrase.length ∨
      ∃ k ≤ defaultNumHashIterations, nss.hashOk k = false) → ∀ (bufs : SigBuffers) (salt : Salt),
    ∃ rc after, generatePassphraseSigInto nss bufs salt passphrase = some (rc, after) ∧ rc ≠ 0 ∧
      after.sig = bufs.sig

/-! ## The text of a signature -/

/-- The loop of `to_hex` leaves the digits of the bytes so far, and what is behind them is written next. -/
theorem toHex_loop (dst : Bytes) (src : List UInt8) {n : ℕ} (le : n ≤ src.length) :
    ∃ ends : List UInt8, ends.length ≤ 1 ∧
      (List.range n).foldl (fun dst x => write dst (x * 2) (toHex [src.getD x 0] ++ [0])) dst =
        write dst 0 (toHex (src.take n) ++ ends) := by
  induction n with
  | zero => exact ⟨[], Nat.zero_le _, (write_nil dst 0).symm⟩
  | succ n ih =>
    obtain ⟨ends, short, written⟩ := ih (by omega)
    have inside : n < src.length := le
    have offset : n * 2 = (toHex (src.take n)).length := by
      rw [length_toHex, List.length_take_of_le (by omega), Nat.mul_comm]
    have next : src.take (n + 1) = src.take n ++ [src.getD n 0] := by
      rw [List.take_succ_eq_append_getElem inside, List.getD_eq_getElem _ _ inside]
    refine ⟨[0], le_refl _, ?_⟩
    rw [List.range_succ, List.foldl_append, List.foldl_cons, List.foldl_nil, written, offset, next,
      toHex_append, List.append_assoc]
    refine write_again dst _ ends _ (short.trans ?_)
    rw [List.length_append, List.length_singleton]
    omega

/-- The pieces that `to_hex` writes come to the digits and a NUL. -/
theorem toHexInto_eq (dst : Bytes) (src : List UInt8) :
    toHexInto dst src = write dst 0 (toHex src ++ [0]) := by
  obtain ⟨ends, short, written⟩ := toHex_loop dst src (le_refl _)
  rw [List.take_length] at written
  have offset : src.length * 2 = (toHex src).length := by rw [length_toHex, Nat.mul_comm]
  rw [toHexInto, written, offset]
  exact write_again dst _ ends _ short

/-! ## The result -/

section

variable (nss : Nss)

/-- What becomes of the buffers is decided by the signature: it goes into the buffers, or its error is
returned and the buffer of the signature stays as it is. -/
theorem generatePassphraseSigInto_refines (bufs : SigBuffers) (salt : Salt) (passphrase : CStr) :
    (generatePassphraseSigInt nss salt passphrase = none →
      generatePassphraseSigInto nss bufs salt passphrase = none) ∧
    (∀ s, generatePassphraseSigInt nss salt passphrase = some (.ok s) →
      generatePassphraseSigInto nss bufs salt passphrase =
        some (0, ⟨write bufs.sig 0 (s.sig ++ [0]), write bufs.fekek 0 s.fekek.toList⟩)) ∧
    ∀ rc, generatePassphraseSigInt nss salt passphrase = some (.error rc) →
      ∃ fekek, generatePassphraseSigInto nss bufs salt passphrase = some (rc, { bufs with fekek }) := by
  rcases lt_or_ge (passphraseSize passphrase) 0 with negative | nonneg
  · have faults : generatePassphraseSigInt nss salt passphrase = none := if_pos negative
    have small : ¬ passphraseSize passphrase > maxPassphraseBytes := by omega
    rw [faults, generatePassphraseSigInto, if_neg small, if_pos negative]
    refine ⟨fun _ => rfl, ?_, ?_⟩
    · intro s done
      cases done
    · intro rc failed
      cases failed
  rw [generatePassphraseSigInt_of_nonneg nss salt nonneg, generatePassphraseSig, length_reachedPart,
    generatePassphraseSigInto]
  rcases lt_or_ge (maxPassphraseBytes : ℤ) (passphraseSize passphrase) with long | fits
  · rw [if_pos (by omega), if_pos long]
    refine ⟨fun faults => (by cases faults), ?_, ?_⟩
    · intro s done
      cases done
    · rintro _ ⟨⟩
      exact ⟨_, rfl⟩
  rw [if_neg (by omega), if_neg (not_lt.mpr fits), if_neg (not_lt.mpr nonneg), ← reachedPart]
  refine ⟨fun faults => (by cases faults), ?_⟩
  dsimp only
  rcases doHash nss 0 (salt.toList ++ reachedPart passphrase) with rc | first
  · constructor
    · intro s done
      cases done
    · rintro _ ⟨⟩
      exact ⟨_, rfl⟩
  · simp only [bind, Except.bind]
    rcases hashLoop nss (defaultNumHashIterations - 1) 1 first with rc | fekek
    · constructor
      · intro s done
        cases done
      · rintro _ ⟨⟩
        exact ⟨_, rfl⟩
    · dsimp only
      rcases doHash nss defaultNumHashIterations fekek.toList with rc | last
      · constructor
        · intro s done
          cases done
        · rintro _ ⟨⟩
          exact ⟨_, rfl⟩
      · constructor
        · rintro _ ⟨⟩
          dsimp only
          rw [toHexInto_eq]
        · intro rc failed
          cases failed

/-- The hash of digests is the hash of their bytes. -/
theorem toList_iterate (n : ℕ) (buf : Digest) :
    ((fun b => nss.sha512 b.toList)^[n] buf).toList = nss.hash^[n] buf.toList := by
  have commutes : Function.Semiconj Vector.toList (fun b : Digest => nss.sha512 b.toList) nss.hash :=
    fun _ => rfl
  exact commutes.iterate_right n buf

/-- The first call and the loop make up all the iterations. -/
theorem toList_fekek (src : List UInt8) :
    ((fun b => nss.sha512 b.toList)^[defaultNumHashIterations - 1] (nss.sha512 src)).toList =
      nss.hash^[defaultNumHashIterations] src := by
  have some_ : 0 < defaultNumHashIterations := by decide
  obtain ⟨n, all⟩ : ∃ n, defaultNumHashIterations = n + 1 :=
    ⟨_, (Nat.sub_add_cancel some_).symm⟩
  rw [toList_iterate, all, Nat.add_sub_cancel, Function.iterate_succ_apply]
  rfl

/-- A passphrase that fits is signed if and only if all hash calls succeed. -/
theorem generatePassphraseSigInto_fits (bufs : SigBuffers) (salt : Salt) {passphrase : CStr}
    (fits : passphrase.length ≤ maxPassphraseBytes) :
    ((∀ k ≤ defaultNumHashIterations, nss.hashOk k = true) →
      let fekek := nss.hash^[defaultNumHashIterations] (salt.toList ++ passphrase)
      generatePassphraseSigInto nss bufs salt passphrase =
        some (0, { sig := write bufs.sig 0 (toHex ((nss.hash fekek).take sigSize) ++ [0])
                   fekek := write bufs.fekek 0 fekek })) ∧
    ((∃ k ≤ defaultNumHashIterations, nss.hashOk k = false) →
      ∃ fekek, generatePassphraseSigInto nss bufs salt passphrase =
        some (-einval, { bufs with fekek })) := by
  obtain ⟨-, done, failed⟩ := generatePassphraseSigInto_refines nss bufs salt passphrase
  rw [generatePassphraseSigInt_of_fits nss salt fits] at done failed
  have result := generatePassphraseSig_fits nss salt fits
  dsimp only at result
  constructor
  · intro ok
    rw [if_pos ok] at result
    have filled := done _ (congrArg some result)
    dsimp only at filled
    rw [toList_fekek] at filled
    exact filled
  · rintro ⟨k, le, fails⟩
    rw [if_neg fun ok => by simp [ok k le] at fails] at result
    exact failed _ (congrArg some result)

end

/-! ## Which passphrases are signed -/

/-- A hash that always succeeds. -/
def zeroNss : Nss where
  sha512 _ := Vector.replicate 64 0
  hashOk _ := true
  importSymKey _ := true
  encrypt _ _ := none
  encryptFinal _ := none
  decrypt _ _ := none
  decryptFinal _ := none

variable {passphrase : CStr}

theorem Signs.of_fits (fits : passphrase.length ≤ maxPassphraseBytes) : Signs passphrase where
  signed _ nss ok bufs salt := (generatePassphraseSigInto_fits nss bufs salt fits).1 ok
  refused nss why bufs salt := by
    obtain ⟨fekek, ran⟩ := (generatePassphraseSigInto_fits nss bufs salt fits).2
      (why.resolve_left (not_lt.mpr fits))
    exact ⟨_, _, ran, by decide, rfl⟩

theorem Signs.of_seen (long : maxPassphraseBytes < passphrase.length)
    (seen : maxPassphraseBytes < passphraseSize passphrase) : Signs passphrase where
  signed fits := absurd long (not_lt.mpr fits)
  refused _ _ bufs _ := ⟨_, bufs, if_pos seen, by decide, rfl⟩

/-- A longer passphrase whose size is not seen is copied beyond the buffers or signed. -/
theorem not_signs (long : maxPassphraseBytes < passphrase.length)
    (unseen : passphraseSize passphrase ≤ maxPassphraseBytes) : ¬ Signs passphrase := by
  intro signs
  obtain ⟨rc, after, ran, failed, -⟩ :=
    signs.refused zeroNss (.inl long) ⟨fun _ => 0, fun _ => 0⟩ (Vector.replicate 8 0)
  rcases lt_or_ge (passphraseSize passphrase) 0 with negative | nonneg
  · rw [generatePassphraseSigInto, if_neg (not_lt.mpr unseen), if_pos negative] at ran
    cases ran
  · have short : (reachedPart passphrase).length ≤ maxPassphraseBytes := by
      rw [length_reachedPart]
      omega
    obtain ⟨s, done⟩ := generatePassphraseSig_ok zeroNss (fun _ => rfl) (Vector.replicate 8 0) short
    have signed : generatePassphraseSigInt zeroNss (Vector.replicate 8 0) passphrase = some (.ok s) := by
      rw [generatePassphraseSigInt_of_nonneg zeroNss _ nonneg, done]
    rw [(generatePassphraseSigInto_refines zeroNss _ _ passphrase).2.1 s signed] at ran
    exact failed (congrArg Prod.fst (Option.some.inj ran)).symm

/-- **Signatures of passphrases.**  The key and the signature are the iterated hash and the text of one
more, and everything else is refused, if and only if the passphrase has at most 64 bytes or its length
is more than 64 as an `int` as well. -/
theorem signs_iff (passphrase : CStr) :
    Signs passphrase ↔ passphrase.length ≤ maxPassphraseBytes ∨
      (maxPassphraseBytes < passphrase.length % 2 ^ 32 ∧ passphrase.length % 2 ^ 32 < 2 ^ 31) := by
  rw [← lt_passphraseSize]
  constructor
  · intro signs
    by_contra neither
    obtain ⟨long, unseen⟩ := not_or.mp neither
    exact not_signs (not_le.mp long) (not_lt.mp unseen) signs
  · rintro (fits | seen)
    · exact .of_fits fits
    · rcases le_or_gt passphrase.length maxPassphraseBytes with fits | long
      · exact .of_fits fits
      · exact .of_seen long seen

/-- A passphrase of 4 GiB is signed as if it was empty. -/
theorem huge_passphrase_signed : ¬ Signs (List.replicate (2 ^ 32) 97) := by
  have length : (List.replicate (2 ^ 32) (97 : UInt8)).length = 2 ^ 32 := List.length_replicate
  apply not_signs
  · rw [length, maxPassphraseBytes]
    norm_num
  · rw [← not_lt, lt_passphraseSize, length, Nat.mod_self]
    omega

end Ecryptfs
