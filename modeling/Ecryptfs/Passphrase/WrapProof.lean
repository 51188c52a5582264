import Ecryptfs.Passphrase.Wrap

/-!
# Round trip and replacement of the wrapped passphrase

Under the documented behaviour of AES-ECB in NSS (`AesEcb`), whatever `wrapPassphrase` stores with
complete writes is what `unwrapPassphrase` gives back, and only under the same signature
(`unwrap_wrap`).  A passphrase of 4 GiB and a bit is taken for the bit at its beginning, and
`unwrap_wrap_iff` says for which lengths nothing is cut off.  Replacing the file is another matter: the
old file is gone before the new one is known to be complete, and `rewrap_iff` says exactly on which
lengths and outcomes of the system calls one of the two survives whole.
-/

namespace Ecryptfs

/-- What the library relies on of NSS: SHA-512 never fails, and AES-ECB under a 16-byte key keeps
the length of whole blocks, rejects anything else, leaves nothing for the final call, and decrypts
what it encrypted. -/
structure AesEcb (nss : Nss) : Prop where
  hash : ∀ k, nss.hashOk k = true
  importKey : ∀ key, key.length = aesKeyBytes → nss.importSymKey key = true
  encrypt_blocks : ∀ key data, key.length = aesKeyBytes → aesBlockSize ∣ data.length →
    ∃ out, nss.encrypt key data = some out ∧ out.length = data.length
  encrypt_rejects : ∀ key data, key.length = aesKeyBytes → ¬ aesBlockSize ∣ data.length →
    nss.encrypt key data = none
  encryptFinal : ∀ key, key.length = aesKeyBytes → nss.encryptFinal key = some []
  decrypt_encrypt : ∀ key data out, key.length = aesKeyBytes → nss.encrypt key data = some out →
    nss.decrypt key out = some data
  decryptFinal : ∀ key, key.length = aesKeyBytes → nss.decryptFinal key = some []

/-- Every `write` made for the given passphrase transfers all requested bytes. -/
def WriteIo.Complete (io : WriteIo) (passphrase : CStr) : Prop :=
  (∃ k, io.writeSig = some k ∧ sigSizeHex ≤ k) ∧
    ∃ k, io.writePassphrase = some k ∧ paddedBytes passphrase ≤ k

/-- Every `read` transfers all requested bytes. -/
def ReadIo.complete : ReadIo := ⟨true, some sigSizeHex, some maxPassphraseBytes⟩

/-! ## Padding -/

theorem paddedBytes_dvd (passphrase : CStr) : aesBlockSize ∣ paddedBytes passphrase := by
  unfold paddedBytes aesBlockSize
  split_ifs <;> omega

theorem le_paddedBytes (passphrase : CStr) : passphrase.length ≤ paddedBytes passphrase := by
  unfold paddedBytes aesBlockSize
  split_ifs <;> omega

theorem paddedBytes_le {passphrase : CStr} (fits : passphrase.length ≤ maxPassphraseBytes) :
    paddedBytes passphrase ≤ maxPassphraseBytes := by
  unfold paddedBytes maxPassphraseBytes aesBlockSize at *
  split_ifs <;> omega

/-- The cipher never sees an uninitialized byte: its input is the passphrase and zeros. -/
theorem paddedInput (uninit : Vector UInt8 16) {passphrase : CStr}
    (fits : passphrase.length ≤ maxPassphraseBytes) :
    (paddedBuffer uninit passphrase).take (paddedBytes passphrase) =
      passphrase ++ List.replicate (paddedBytes passphrase - passphrase.length) 0 := by
  have top := paddedBytes_le fits
  have low := le_paddedBytes passphrase
  unfold paddedBuffer
  rw [List.take_append_of_le_length (by simp; omega),
    List.take_append, List.take_of_length_le low, List.take_replicate]
  congr 2
  omega

/-! ## The record -/

variable {nss : Nss} (uninit : Vector UInt8 16)

theorem cipherOp_of_le (maxout : ℕ) {op : List UInt8 → Option (List UInt8)}
    {input out : List UInt8} (h : op input = some out) (fits : out.length ≤ maxout) :
    cipherOp op maxout input = some out := by
  simp [cipherOp, h, fits]

theorem length_key (d : Digest) : (d.toList.take aesKeyBytes).length = aesKeyBytes := by
  simp [aesKeyBytes]

/-- The record of an acceptable passphrase: the signature and the encrypted padded passphrase. -/
theorem wrapRecord_ok (ecb : AesEcb nss) {W P : CStr} {S : Salt}
    (fitsP : P.length ≤ maxPassphraseBytes) {w : PassphraseSig}
    (sig : generatePassphraseSig nss S W = .ok w) :
    ∃ out, nss.encrypt (w.fekek.toList.take aesKeyBytes)
        (P ++ List.replicate (paddedBytes P - P.length) 0) = some out ∧
      out.length = paddedBytes P ∧
      wrapRecord nss uninit W S P = .ok ⟨w.sig, out⟩ := by
  have key := length_key w.fekek
  have size : (P ++ List.replicate (paddedBytes P - P.length) (0 : UInt8)).length =
      paddedBytes P := by
    have := le_paddedBytes P
    simp only [List.length_append, List.length_replicate]
    omega
  obtain ⟨out, enc, len⟩ := ecb.encrypt_blocks _
    (P ++ List.replicate (paddedBytes P - P.length) 0) key (size ▸ paddedBytes_dvd P)
  have top := paddedBytes_le fitsP
  rw [size] at len
  refine ⟨out, enc, len, ?_⟩
  have first := cipherOp_of_le (maxPassphraseBytes + aesBlockSize) enc (by omega)
  have last := cipherOp_of_le (maxPassphraseBytes + aesBlockSize - out.length)
    (ecb.encryptFinal _ key) (Nat.zero_le _)
  unfold wrapRecord
  simp only [if_neg (not_lt.mpr fitsP), sig, ecb.importKey _ key, Bool.true_eq_false, if_false,
    paddedInput uninit fitsP, first, last]
  simp [len]

/-- A passphrase is refused before the file is touched only with a non-zero code. -/
theorem wrapRecord_error {W P : CStr} {S : Salt} {rc : ℤ}
    (failed : wrapRecord nss uninit W S P = .error rc) : rc ≠ 0 := by
  have eio_ne : (-eio : ℤ) ≠ 0 := by decide
  unfold wrapRecord at failed
  split_ifs at failed
  · exact Except.error.inj failed ▸ eio_ne
  · split at failed
    next e he =>
      rw [generatePassphraseSig_error nss he] at failed
      exact Except.error.inj failed ▸ by decide
    next w hw =>
      simp only at failed
      split_ifs at failed
      · exact Except.error.inj failed ▸ eio_ne
      · split at failed
        · exact Except.error.inj failed ▸ eio_ne
        · split at failed
          · exact Except.error.inj failed ▸ eio_ne
          · split_ifs at failed
            exact Except.error.inj failed ▸ eio_ne

/-- A record has the sixteen characters of the signature and whole encrypted blocks. -/
theorem wrapRecord_sizes {W P : CStr} {S : Salt} {r : WrappedRecord}
    (done : wrapRecord nss uninit W S P = .ok r) :
    (generatePassphraseSig nss S W).map PassphraseSig.sig = .ok r.sig ∧
      r.sig.length = sigSizeHex ∧ r.encrypted.length = paddedBytes P := by
  unfold wrapRecord at done
  split_ifs at done
  split at done
  · cases done
  · next w hw =>
    simp only at done
    split_ifs at done
    split at done
    · cases done
    · split at done
      · cases done
      · split_ifs at done with size
        obtain rfl := Except.ok.inj done
        refine ⟨by rw [hw]; rfl, generatePassphraseSig_length nss hw, ?_⟩
        simp only [List.length_append]
        omega

/-- The file is replaced by the record, if there is one. -/
theorem wrapPassphrase_of_record {io : WriteIo} {file : Option (List UInt8)} {W P : CStr} {S : Salt}
    {r : WrappedRecord} (record : wrapRecord nss uninit W S P = .ok r) :
    wrapPassphrase nss uninit io file W S P = replaceFile io file r := by
  rw [wrapPassphrase, record]

/-! ## Round trip -/

theorem transfer_all {k : ℕ} {bytes : List UInt8} (h : bytes.length ≤ k) (some_ : bytes ≠ []) :
    transfer (some k) bytes = some bytes := by
  simp [transfer, List.take_of_length_le h, some_]

theorem transfer_nil (outcome : Option ℕ) : transfer outcome [] = none := by
  cases outcome <;> simp [transfer]

theorem paddedBytes_eq_zero {P : CStr} : paddedBytes P = 0 ↔ P = [] := by
  constructor
  · intro h
    have := le_paddedBytes P
    exact List.length_eq_zero_iff.mp (by omega)
  · rintro rfl
    rfl

/-- With complete writes a file that can be created is replaced as soon as there is an encrypted
block to write. -/
theorem replaceFile_complete {io : WriteIo} {P : CStr} {r : WrappedRecord}
    (sizes : r.sig.length = sigSizeHex ∧ r.encrypted.length = paddedBytes P)
    (complete : io.Complete P) (nonempty : P ≠ []) {file : Option (List UInt8)}
    (gone : unlinked io file = none) (opened : io.openOk = true) :
    replaceFile io file r = (0, some r.bytes) := by
  obtain ⟨⟨k, hk, sixteen⟩, m, hm, blocks⟩ := complete
  have sigWritten : transfer io.writeSig r.sig = some r.sig := by
    rw [hk]
    refine transfer_all (by omega) (List.ne_nil_of_length_pos ?_)
    rw [sizes.1]
    decide
  have passWritten : transfer io.writePassphrase r.encrypted = some r.encrypted := by
    rw [hm]
    refine transfer_all (by omega) (List.ne_nil_of_length_pos ?_)
    rw [sizes.2]
    exact Nat.pos_of_ne_zero (mt paddedBytes_eq_zero.mp nonempty)
  simp only [replaceFile, gone, opened, Bool.true_eq_false, if_false, sigWritten, passWritten,
    WrappedRecord.bytes]

/-- Nothing is written to a file that cannot be created. -/
theorem replaceFile_created {io : WriteIo} {r : WrappedRecord} {file file' : Option (List UInt8)}
    (done : replaceFile io file r = (0, file')) : unlinked io file = none ∧ io.openOk = true := by
  have eio_ne : (-eio : ℤ) ≠ 0 := by decide
  have gone : unlinked io file = none := by
    rcases h : unlinked io file with _ | old
    · rfl
    · simp [replaceFile, h, eio_ne] at done
  refine ⟨gone, ?_⟩
  by_contra h
  simp [replaceFile, gone, Bool.eq_false_iff.mpr h, eio_ne] at done

/-- With complete writes, success means that the file now holds the record. -/
theorem replaceFile_success {io : WriteIo} {P : CStr} {r : WrappedRecord}
    (sizes : r.sig.length = sigSizeHex ∧ r.encrypted.length = paddedBytes P)
    (complete : io.Complete P) {file file' : Option (List UInt8)}
    (done : replaceFile io file r = (0, file')) : P ≠ [] ∧ file' = some r.bytes := by
  have eio_ne : (-eio : ℤ) ≠ 0 := by decide
  obtain ⟨gone, opened⟩ := replaceFile_created done
  have nonempty : P ≠ [] := by
    rintro rfl
    have none_ : r.encrypted = [] := List.length_eq_zero_iff.mp sizes.2
    simp only [replaceFile, gone, opened, none_, transfer_nil, Bool.true_eq_false, if_false] at done
    split at done <;> exact eio_ne (Prod.mk.inj done).1
  refine ⟨nonempty, ?_⟩
  rw [replaceFile_complete sizes complete nonempty gone opened] at done
  exact (Prod.mk.inj done).2.symm

/-- A wrap that succeeds with complete writes leaves the signature and the encrypted padded passphrase. -/
theorem wrapPassphrase_success (ecb : AesEcb nss) {io : WriteIo} {file file' : Option (List UInt8)}
    {W P : CStr} {S : Salt} (complete : io.Complete P)
    (done : wrapPassphrase nss uninit io file W S P = (0, file')) :
    ∃ w out, generatePassphraseSig nss S W = .ok w ∧ P.length ≤ maxPassphraseBytes ∧ P ≠ [] ∧
      nss.encrypt (w.fekek.toList.take aesKeyBytes)
        (P ++ List.replicate (paddedBytes P - P.length) 0) = some out ∧
      out.length = paddedBytes P ∧ file' = some (w.sig ++ out) := by
  rcases record : wrapRecord nss uninit W S P with rc | r
  · rw [wrapPassphrase, record] at done
    exact absurd (Prod.mk.inj done).1 (wrapRecord_error uninit record)
  · rw [wrapPassphrase_of_record uninit record] at done
    have fits : P.length ≤ maxPassphraseBytes := by
      by_contra long
      rw [wrapRecord, if_pos (not_le.mp long)] at record
      cases record
    rcases gen : generatePassphraseSig nss S W with rc | w
    · rw [wrapRecord, if_neg (not_lt.mpr fits), gen] at record
      cases record
    · obtain ⟨out, enc, len, record'⟩ := wrapRecord_ok uninit ecb fits gen
      obtain ⟨nonempty, rfl⟩ := replaceFile_success (wrapRecord_sizes uninit record).2 complete done
      obtain rfl := Except.ok.inj (record'.symm.trans record)
      exact ⟨w, out, rfl, fits, nonempty, enc, len, rfl⟩

/-- The padding is cut off again where the text ends. -/
theorem takeWhile_padded {P : CStr} (noNul : 0 ∉ P) (n : ℕ) :
    (P ++ List.replicate n 0).takeWhile (· ≠ 0) = P := by
  have text : ∀ b ∈ P, decide (b ≠ 0) = true :=
    fun b among => decide_eq_true fun zero => noNul (zero ▸ among)
  rw [List.takeWhile_append_of_pos text]
  simp

/-- Reading a complete record back under its own signature and key. -/
theorem unwrap_record (ecb : AesEcb nss) {W P : CStr} {S : Salt} {w : PassphraseSig}
    {out : List UInt8} (sig : generatePassphraseSig nss S W = .ok w)
    (fits : P.length ≤ maxPassphraseBytes) (nonempty : P ≠ [])
    (enc : nss.encrypt (w.fekek.toList.take aesKeyBytes)
      (P ++ List.replicate (paddedBytes P - P.length) 0) = some out)
    (len : out.length = paddedBytes P) :
    unwrapPassphrase nss .complete (some (w.sig ++ out)) W S =
      .ok (P ++ List.replicate (maxPassphraseBytes + 1 - P.length) 0) := by
  have key := length_key w.fekek
  have sigLen := generatePassphraseSig_length nss sig
  have top := paddedBytes_le fits
  have low := le_paddedBytes P
  have size : (P ++ List.replicate (paddedBytes P - P.length) (0 : UInt8)).length =
      paddedBytes P := by
    simp only [List.length_append, List.length_replicate]
    omega
  have readSig : transfer (some sigSizeHex) ((w.sig ++ out).take sigSizeHex) = some w.sig := by
    rw [← sigLen, List.take_left]
    refine transfer_all le_rfl (List.ne_nil_of_length_pos ?_)
    rw [sigLen]
    decide
  have readOut : transfer (some maxPassphraseBytes)
      (((w.sig ++ out).drop w.sig.length).take maxPassphraseBytes) = some out := by
    rw [List.drop_left, List.take_of_length_le (by omega)]
    refine transfer_all (by omega) (List.ne_nil_of_length_pos ?_)
    rw [len]
    exact Nat.pos_of_ne_zero (mt paddedBytes_eq_zero.mp nonempty)
  have first := cipherOp_of_le maxPassphraseBytes
    (ecb.decrypt_encrypt _ _ _ key enc) (by omega)
  have last := cipherOp_of_le
    (maxPassphraseBytes - (P ++ List.replicate (paddedBytes P - P.length) 0).length)
    (ecb.decryptFinal _ key) (Nat.zero_le _)
  unfold unwrapPassphrase ReadIo.complete
  simp only [sig, if_true, readSig, readOut]
  simp only [sigLen, Nat.sub_self, List.replicate_zero, List.append_nil, ne_eq, not_true_eq_false,
    if_false, ecb.importKey _ key, Bool.true_eq_false, first, last]
  rw [size, len]
  simp only [List.length_nil, Nat.cast_zero, add_zero, sub_self, not_true_eq_false, if_false,
    List.append_assoc, List.replicate_append_replicate]
  congr 3
  omega

/-- A record read under another signature is refused. -/
theorem unwrap_other {W' : CStr} {S' : Salt} {sig out : List UInt8} (sixteen : sig.length = sigSizeHex)
    (other : (generatePassphraseSig nss S' W').map PassphraseSig.sig ≠ .ok sig) :
    ∃ rc, rc ≠ 0 ∧ unwrapPassphrase nss .complete (some (sig ++ out)) W' S' = .error rc := by
  have eio_ne : (-eio : ℤ) ≠ 0 := by decide
  have readSig : transfer (some sigSizeHex) ((sig ++ out).take sigSizeHex) = some sig := by
    rw [← sixteen, List.take_left]
    refine transfer_all le_rfl (List.ne_nil_of_length_pos ?_)
    rw [sixteen]
    decide
  unfold unwrapPassphrase ReadIo.complete
  rcases gen : generatePassphraseSig nss S' W' with rc | w
  · rw [generatePassphraseSig_error nss gen]
    exact ⟨_, by decide, rfl⟩
  · have differ : sig ≠ w.sig := by
      rintro rfl
      exact other (by rw [gen]; rfl)
    have wLen := generatePassphraseSig_length nss gen
    simp only [if_true, readSig]
    split
    · exact ⟨_, eio_ne, rfl⟩
    · rw [if_pos]
      · exact ⟨_, eio_ne, rfl⟩
      · rw [sixteen, Nat.sub_self, List.replicate_zero, List.append_nil,
          List.take_of_length_le sixteen.le, List.take_of_length_le wLen.le]
        exact differ

/-- **What is wrapped is what is unwrapped.**  A passphrase stored with complete writes comes back,
followed by NUL, under the same wrapping passphrase and salt; another signature is refused; and
every length from 1 to 64 is accepted. -/
theorem unwrap_wrap (ecb : AesEcb nss) (W : CStr) (fitsW : W.length ≤ maxPassphraseBytes)
    (S : Salt) :
    (∀ (io : WriteIo) (file file' : Option (List UInt8)) (P : CStr), 0 ∉ P → io.Complete P →
      wrapPassphrase nss uninit io file W S P = (0, file') →
        (∃ out, unwrapPassphrase nss .complete file' W S = .ok out ∧
          out = P ++ List.replicate (maxPassphraseBytes + 1 - P.length) 0 ∧
          out.takeWhile (· ≠ 0) = P ∧ P.length < out.length) ∧
        ∀ W' S', (generatePassphraseSig nss S' W').map PassphraseSig.sig ≠
            (generatePassphraseSig nss S W).map PassphraseSig.sig →
          ∃ rc, rc ≠ 0 ∧ unwrapPassphrase nss .complete file' W' S' = .error rc) ∧
    ∀ (io : WriteIo) (file : Option (List UInt8)) (P : CStr), 0 ∉ P → io.Complete P →
      io.openOk = true → unlinked io file = none → 1 ≤ P.length → P.length ≤ maxPassphraseBytes →
        (wrapPassphrase nss uninit io file W S P).1 = 0 := by
  constructor
  · intro io file file' P noNul complete done
    obtain ⟨w, out, gen, fitsP, nonempty, enc, len, rfl⟩ := wrapPassphrase_success uninit ecb complete done
    refine ⟨⟨_, unwrap_record ecb gen fitsP nonempty enc len, rfl, takeWhile_padded noNul _, ?_⟩, ?_⟩
    · simp only [List.length_append, List.length_replicate]
      omega
    · intro W' S' other
      rw [gen] at other
      exact unwrap_other (generatePassphraseSig_length nss gen) other
  · intro io file P noNul complete opened gone positive fitsP
    obtain ⟨w, gen⟩ := generatePassphraseSig_ok nss ecb.hash S fitsW
    obtain ⟨out, -, -, record⟩ := wrapRecord_ok uninit ecb fitsP gen
    rw [wrapPassphrase_of_record uninit record,
      replaceFile_complete (wrapRecord_sizes uninit record).2 complete
        (List.ne_nil_of_length_pos positive) gone opened]

/-- A cipher that keeps whole blocks as they are, and a constant hash. -/
def plainNss : Nss where
  sha512 _ := Vector.replicate 64 0
  hashOk _ := true
  importSymKey _ := true
  encrypt _ data := if aesBlockSize ∣ data.length then some data else none
  encryptFinal _ := some []
  decrypt _ data := if aesBlockSize ∣ data.length then some data else none
  decryptFinal _ := some []

theorem aesEcb_plainNss : AesEcb plainNss where
  hash _ := rfl
  importKey _ _ := rfl
  encrypt_blocks _ data _ blocks := ⟨data, if_pos blocks, rfl⟩
  encrypt_rejects _ _ _ part := if_neg part
  encryptFinal _ _ := rfl
  decrypt_encrypt key data out _ enc := by
    simp only [plainNss] at enc ⊢
    split_ifs at enc with blocks
    obtain rfl := Option.some.inj enc
    rw [if_pos blocks]
  decryptFinal _ _ := rfl

/-- What a wrap with complete writes stores comes back, followed by NUL, under the same wrapping passphrase
and salt, and under no other signature; and a passphrase of 1 to 64 bytes is accepted. -/
structure RoundTrip (nss : Nss) (uninit : Vector UInt8 16) (W : CStr) (S : Salt) (P : CStr) : Prop where
  back : ∀ (io : WriteIo) (file file' : Option (List UInt8)), io.Complete (reachedPart P) →
    wrapPassphraseInt nss uninit io file W S P = some (0, file') →
      ∃ out, unwrapPassphraseInt nss .complete file' W S = some (.ok out) ∧
        out = P ++ List.replicate (maxPassphraseBytes + 1 - P.length) 0 ∧ P.length < out.length
  other : ∀ (io : WriteIo) (file file' : Option (List UInt8)), io.Complete (reachedPart P) →
    wrapPassphraseInt nss uninit io file W S P = some (0, file') →
      ∀ (W' : CStr) (S' : Salt) (s s' : Except ℤ PassphraseSig),
        generatePassphraseSigInt nss S W = some s → generatePassphraseSigInt nss S' W' = some s' →
        s'.map PassphraseSig.sig ≠ s.map PassphraseSig.sig →
          ∃ rc, rc ≠ 0 ∧ unwrapPassphraseInt nss .complete file' W' S' = some (.error rc)
  accepted : ∀ (io : WriteIo) (file : Option (List UInt8)), io.Complete (reachedPart P) →
    io.openOk = true → unlinked io file = none → 1 ≤ P.length → P.length ≤ maxPassphraseBytes →
      ∃ file', wrapPassphraseInt nss uninit io file W S P = some (0, file')

theorem RoundTrip.of_fits (ecb : AesEcb nss) {W P : CStr} (fitsW : W.length ≤ maxPassphraseBytes) (S : Salt)
    (text : 0 ∉ P) (fits : P.length ≤ maxPassphraseBytes) : RoundTrip nss uninit W S P := by
  obtain ⟨back, accepted⟩ := unwrap_wrap uninit ecb W fitsW S
  have whole := reachedPart_of_fits fits
  refine ⟨?_, ?_, ?_⟩
  · intro io file file' complete done
    rw [wrapPassphraseInt_of_fits fitsW fits] at done
    obtain ⟨⟨out, read, isOut, -, long⟩, -⟩ := back io file file' P text (whole ▸ complete) (Option.some.inj done)
    exact ⟨out, by rw [unwrapPassphraseInt_of_fits fitsW, read], isOut, long⟩
  · intro io file file' complete done W' S' s s' gen gen' differ
    rw [wrapPassphraseInt_of_fits fitsW fits] at done
    rw [generatePassphraseSigInt_of_fits nss S fitsW] at gen
    obtain rfl := Option.some.inj gen
    -- what is signed of the other passphrase is the part that its length reaches
    rcases lt_or_ge (passphraseSize W') 0 with negative | nonneg
    · rw [generatePassphraseSigInt, if_pos negative] at gen'
      cases gen'
    · rw [generatePassphraseSigInt_of_nonneg nss S' nonneg] at gen'
      obtain rfl := Option.some.inj gen'
      obtain ⟨rc, failed, refused⟩ :=
        (back io file file' P text (whole ▸ complete) (Option.some.inj done)).2 _ S' differ
      exact ⟨rc, failed, by rw [unwrapPassphraseInt_of_nonneg nonneg, refused]⟩
  · intro io file complete opened gone positive fits
    have done := accepted io file P text (whole ▸ complete) opened gone positive fits
    rw [wrapPassphraseInt_of_fits fitsW fits]
    exact ⟨_, congrArg some (Prod.ext done rfl)⟩

/-- With complete writes, a passphrase that is wrapped is reached by its length: it is not empty, and not more
than 64 bytes of it are taken. -/
theorem reached_of_wrapped (ecb : AesEcb nss) {W P : CStr} (fitsW : W.length ≤ maxPassphraseBytes) {S : Salt}
    {io : WriteIo} {file file' : Option (List UInt8)} (complete : io.Complete (reachedPart P))
    (done : wrapPassphraseInt nss uninit io file W S P = some (0, file')) :
    0 < P.length % 2 ^ 32 ∧ P.length % 2 ^ 32 ≤ maxPassphraseBytes := by
  rcases lt_or_ge (passphraseSize P) 0 with negative | nonneg
  · obtain ⟨w, gen⟩ := generatePassphraseSig_ok nss ecb.hash S fitsW
    have small : ¬ passphraseSize P > maxPassphraseBytes := by omega
    rw [wrapPassphraseInt, wrapRecordInt, if_neg small, generatePassphraseSigInt_of_fits nss S fitsW, gen] at done
    dsimp only at done
    rw [if_pos negative] at done
    cases done
  · rw [wrapPassphraseInt_of_nonneg (nonneg_of_fits fitsW) nonneg] at done
    obtain ⟨-, -, -, fits, nonempty, -⟩ := wrapPassphrase_success uninit ecb complete (Option.some.inj done)
    have size := length_reachedPart_mod nonneg
    have positive := List.length_pos_of_ne_nil nonempty
    omega

/-- A passphrase that is cut off does not come back. -/
theorem not_roundTrip (ecb : AesEcb nss) {W P : CStr} (fitsW : W.length ≤ maxPassphraseBytes) (S : Salt)
    (text : 0 ∉ P) (long : maxPassphraseBytes < P.length) (positive : 0 < P.length % 2 ^ 32)
    (small : P.length % 2 ^ 32 ≤ maxPassphraseBytes) : ¬ RoundTrip nss uninit W S P := by
  intro law
  have nonneg : 0 ≤ passphraseSize P := by
    rw [passphraseSize_nonneg]
    unfold maxPassphraseBytes at small
    omega
  have size := length_reachedPart_mod nonneg
  let io : WriteIo := ⟨true, true, some sigSizeHex, some (paddedBytes (reachedPart P))⟩
  have complete : io.Complete (reachedPart P) := ⟨⟨_, rfl, le_rfl⟩, _, rfl, le_rfl⟩
  have textReached : 0 ∉ reachedPart P := fun among => text (List.mem_of_mem_take among)
  obtain ⟨back, accepted⟩ := unwrap_wrap uninit ecb W fitsW S
  rcases wrapped : wrapPassphrase nss uninit io none W S (reachedPart P) with ⟨rc, file'⟩
  have done := accepted io none _ textReached complete rfl rfl (by omega) (by omega)
  rw [wrapped] at done
  obtain rfl : rc = 0 := done
  have wrappedInt : wrapPassphraseInt nss uninit io none W S P = some (0, file') := by
    rw [wrapPassphraseInt_of_nonneg (nonneg_of_fits fitsW) nonneg, reachedPart_of_fits fitsW, wrapped]
  obtain ⟨out, read, -, whole⟩ := law.back io none file' complete wrappedInt
  obtain ⟨⟨out', read', isOut', -⟩, -⟩ := back io none file' _ textReached complete wrapped
  rw [unwrapPassphraseInt_of_fits fitsW, read'] at read
  obtain rfl := Except.ok.inj (Option.some.inj read)
  rw [isOut', List.length_append, List.length_replicate] at whole
  omega

/-- **Which passphrases come back.**  What is wrapped with complete writes is what is unwrapped, and only under
its own signature, if and only if the passphrase has at most 64 bytes or its length is zero or more than 64
as an unsigned 32-bit number, so that nothing is stored of it. -/
theorem unwrap_wrap_iff (ecb : AesEcb nss) (uninit : Vector UInt8 16) {W : CStr}
    (fitsW : W.length ≤ maxPassphraseBytes) (S : Salt) {P : CStr} (text : 0 ∉ P) :
    RoundTrip nss uninit W S P ↔ P.length ≤ maxPassphraseBytes ∨ P.length % 2 ^ 32 = 0 ∨
      maxPassphraseBytes < P.length % 2 ^ 32 := by
  constructor
  · intro law
    by_contra none_
    obtain ⟨long, some_, small⟩ : maxPassphraseBytes < P.length ∧ P.length % 2 ^ 32 ≠ 0 ∧
        P.length % 2 ^ 32 ≤ maxPassphraseBytes := by
      simpa only [not_or, not_le, not_lt] using none_
    exact not_roundTrip uninit ecb fitsW S text long (Nat.pos_of_ne_zero some_) small law
  · intro lengths
    rcases le_or_gt P.length maxPassphraseBytes with fits | long
    · exact .of_fits uninit ecb fitsW S text fits
    · have never : ∀ (io : WriteIo) (file file' : Option (List UInt8)), io.Complete (reachedPart P) →
          wrapPassphraseInt nss uninit io file W S P ≠ some (0, file') := by
        intro io file file' complete done
        have reached := reached_of_wrapped uninit ecb fitsW complete done
        omega
      exact ⟨fun io file file' complete done => absurd done (never io file file' complete),
        fun io file file' complete done => absurd done (never io file file' complete),
        fun _ _ _ _ _ _ fits => absurd long (not_lt.mpr fits)⟩

/-- A passphrase of 64 bytes comes back. -/
theorem unwrap_wrap_longest :
    RoundTrip plainNss (.replicate 16 170) "w" (.replicate 8 0) (List.replicate 64 120) :=
  (unwrap_wrap_iff aesEcb_plainNss (.replicate 16 170) (by decide) (.replicate 8 0) (by decide)).mpr
    (.inl (by decide))

/-- Of a passphrase of 4 GiB and sixteen bytes, sixteen bytes come back. -/
theorem huge_passphrase_cut :
    ¬ RoundTrip plainNss (.replicate 16 170) "w" (.replicate 8 0) (List.replicate (2 ^ 32 + 16) 120) := by
  have length : (List.replicate (2 ^ 32 + 16) (120 : UInt8)).length = 2 ^ 32 + 16 := List.length_replicate
  refine not_roundTrip _ aesEcb_plainNss (by decide) _ ?_ ?_ ?_ ?_
  · intro among
    exact absurd (List.eq_of_mem_replicate among) (by decide)
  · rw [length, maxPassphraseBytes]
    omega
  · rw [length]
    omega
  · rw [length, maxPassphraseBytes]
    omega

/-! ## Replacing the file -/

/-- A rewrap either stores the signature and all encrypted blocks of the passphrase or leaves the old file
alone. -/
def Rewrapped (P : CStr) (record : Option (Except ℤ WrappedRecord)) (old : List UInt8)
    (result : Option (ℤ × Option (List UInt8))) : Prop :=
  ∃ rc file, result = some (rc, file) ∧
    ((rc = 0 ∧ ∃ r, record = some (.ok r) ∧ r.sig.length = sigSizeHex ∧ r.encrypted.length = paddedBytes P ∧
        file = some r.bytes) ∨
      (rc ≠ 0 ∧ file = some old))

/-- The outcomes of the system calls on which the old file or the new record survives, `sig` being
the signature of the wrapping passphrase: the old file cannot be unlinked; or it is recreated and
both parts are written whole, the second having all blocks of a passphrase that is not empty; or the write
that fails happens to leave a file equal to the old one. -/
def WriteIo.Survives (io : WriteIo) (old : List UInt8) (sig : CStr) (P : CStr) : Prop :=
  io.unlinkOk = false ∨ io.openOk = true ∧
    ((io.Complete P ∧ P ≠ [] ∧ P.length ≤ maxPassphraseBytes) ∨
      (io.writeSig.getD 0 = 0 ∧ old = []) ∨
      (∃ k, io.writeSig = some k ∧ k ≠ 0 ∧ old = sig.take k) ∧
        (io.writePassphrase.getD 0 = 0 ∨ P.length % 2 ^ 32 = 0))

theorem transfer_eq_self {outcome : Option ℕ} {bytes : List UInt8} :
    transfer outcome bytes = some bytes ↔
      bytes ≠ [] ∧ ∃ k, outcome = some k ∧ bytes.length ≤ k := by
  cases outcome with
  | none => simp [transfer]
  | some k => simp [transfer, Option.filter_eq_some_iff, and_comm, List.take_eq_self_iff]

theorem transfer_eq_none {outcome : Option ℕ} {bytes : List UInt8} :
    transfer outcome bytes = none ↔ outcome.getD 0 = 0 ∨ bytes = [] := by
  cases outcome with
  | none => simp [transfer]
  | some k => simp [transfer, Option.filter_eq_none_iff]

theorem transfer_eq_some {outcome : Option ℕ} {bytes moved : List UInt8} (some_ : bytes ≠ []) :
    transfer outcome bytes = some moved ↔
      ∃ k, outcome = some k ∧ k ≠ 0 ∧ moved = bytes.take k := by
  cases outcome with
  | none => simp [transfer]
  | some k =>
    simp only [transfer, Option.map_some, Option.filter_eq_some_iff, Option.some.injEq,
      exists_eq_left', decide_eq_true_eq]
    constructor
    · rintro ⟨rfl, h⟩
      exact ⟨fun zero => h (by rw [zero, List.take_zero]), rfl⟩
    · rintro ⟨h, rfl⟩
      exact ⟨rfl, by simp [h, some_]⟩

/-- Two prefixes that together have all the bytes are whole. -/
theorem eq_of_prefix_append {a a' b b' : List UInt8} (ha : a' <+: a) (hb : b' <+: b)
    (same : a' ++ b' = a ++ b) : a' = a ∧ b' = b := by
  have hla := ha.length_le
  have hlb := hb.length_le
  have len := congrArg List.length same
  simp only [List.length_append] at len
  exact ⟨ha.eq_of_length (by omega), hb.eq_of_length (by omega)⟩

theorem transfer_front {outcome : Option ℕ} {bytes moved : List UInt8}
    (h : transfer outcome bytes = some moved) : moved <+: bytes := by
  cases outcome with
  | none => simp [transfer] at h
  | some k =>
    simp only [transfer, Option.map_some, Option.filter_eq_some_iff, Option.some.injEq] at h
    exact h.1 ▸ List.take_prefix _ _

/-- All blocks of a passphrase are in a record of the part that is reached only if that is the whole. -/
theorem fits_of_paddedBytes {P : CStr} (fits : (reachedPart P).length ≤ maxPassphraseBytes)
    (blocks : paddedBytes (reachedPart P) = paddedBytes P) : P.length ≤ maxPassphraseBytes := by
  have low := le_paddedBytes P
  have top := paddedBytes_le fits
  omega

/-- Survival in terms of what the two writes of a record transfer. -/
theorem survives_iff {io : WriteIo} {old : List UInt8} {P : CStr} {r : WrappedRecord}
    (sizes : r.sig.length = sigSizeHex ∧ r.encrypted.length = paddedBytes (reachedPart P))
    (nonneg : 0 ≤ passphraseSize P) (fits : (reachedPart P).length ≤ maxPassphraseBytes) :
    io.Survives old r.sig P ↔ io.unlinkOk = false ∨ io.openOk = true ∧
      ((transfer io.writeSig r.sig = some r.sig ∧
          transfer io.writePassphrase r.encrypted = some r.encrypted ∧
          r.encrypted.length = paddedBytes P) ∨
        (transfer io.writeSig r.sig = none ∧ old = []) ∨
        (transfer io.writeSig r.sig = some old ∧
          transfer io.writePassphrase r.encrypted = none)) := by
  have sigSome : r.sig ≠ [] := List.ne_nil_of_length_pos (by rw [sizes.1]; decide)
  have encSome : r.encrypted = [] ↔ P.length % 2 ^ 32 = 0 := by
    rw [← List.length_eq_zero_iff, sizes.2, paddedBytes_eq_zero, ← List.length_eq_zero_iff,
      length_reachedPart_mod nonneg]
  have whole : io.Complete P ∧ P ≠ [] ∧ P.length ≤ maxPassphraseBytes ↔
      transfer io.writeSig r.sig = some r.sig ∧
      transfer io.writePassphrase r.encrypted = some r.encrypted ∧ r.encrypted.length = paddedBytes P := by
    have reached : P.length ≤ maxPassphraseBytes ↔ r.encrypted.length = paddedBytes P := by
      rw [sizes.2]
      exact ⟨fun short => by rw [reachedPart_of_fits short], fits_of_paddedBytes fits⟩
    have empty : P.length ≤ maxPassphraseBytes → (P ≠ [] ↔ ¬ P.length % 2 ^ 32 = 0) := by
      intro short
      unfold maxPassphraseBytes at short
      rw [Nat.mod_eq_of_lt (by omega), List.length_eq_zero_iff]
    simp only [transfer_eq_self, WriteIo.Complete, ne_eq, encSome, sizes.1, sigSome, not_false_eq_true, true_and]
    constructor
    · rintro ⟨⟨signed, k, isK, all⟩, some_, short⟩
      exact ⟨signed, ⟨(empty short).mp some_, k, isK, (reached.mp short).le.trans all⟩, reached.mp short⟩
    · rintro ⟨signed, ⟨some_, k, isK, all⟩, blocks⟩
      exact ⟨⟨signed, k, isK, blocks ▸ all⟩, (empty (reached.mpr blocks)).mpr some_, reached.mpr blocks⟩
  rw [WriteIo.Survives, whole, @transfer_eq_some _ _ old sigSome, transfer_eq_none,
    transfer_eq_none, encSome, or_iff_left sigSome]

theorem rewrapped_some {P : CStr} {record : Option (Except ℤ WrappedRecord)} {old : List UInt8}
    {result : ℤ × Option (List UInt8)} :
    Rewrapped P record old (some result) ↔
      (result.1 = 0 ∧ ∃ r, record = some (.ok r) ∧ r.sig.length = sigSizeHex ∧
        r.encrypted.length = paddedBytes P ∧ result.2 = some r.bytes) ∨
      (result.1 ≠ 0 ∧ result.2 = some old) := by
  constructor
  · rintro ⟨rc, file, returned, what⟩
    obtain rfl := Option.some.inj returned
    exact what
  · intro what
    exact ⟨_, _, rfl, what⟩

/-- What replacing an existing file does, by the outcomes of the calls. -/
theorem rewrapped_replaceFile_iff {io : WriteIo} {old : List UInt8} {P : CStr} {r : WrappedRecord}
    (sizes : r.sig.length = sigSizeHex ∧ r.encrypted.length = paddedBytes (reachedPart P))
    (nonneg : 0 ≤ passphraseSize P) (fits : (reachedPart P).length ≤ maxPassphraseBytes) :
    Rewrapped P (some (.ok r)) old (some (replaceFile io (some old) r)) ↔ io.Survives old r.sig P := by
  have eio_ne : (-eio : ℤ) ≠ 0 := by decide
  rw [survives_iff sizes nonneg fits, rewrapped_some]
  unfold replaceFile unlinked
  by_cases kept : io.unlinkOk = true
  · by_cases opened : io.openOk = true
    · rcases hsig : transfer io.writeSig r.sig with _ | sig
      · simp [kept, opened, eio_ne, @eq_comm _ [] old]
      · rcases henc : transfer io.writePassphrase r.encrypted with _ | enc
        · simp [kept, opened, eio_ne]
        · have hs := transfer_front hsig
          have he := transfer_front henc
          simp only [kept, opened, if_true, Bool.true_eq_false, if_false,
            WrappedRecord.bytes, Except.ok.injEq, exists_eq_left', Option.some.injEq, ne_eq,
            not_true_eq_false, false_and, or_false, true_and, sizes.1, reduceCtorEq, and_false,
            false_or]
          constructor
          · rintro ⟨blocks, same⟩
            obtain ⟨rfl, rfl⟩ := eq_of_prefix_append hs he same
            exact ⟨rfl, rfl, blocks⟩
          · rintro ⟨rfl, rfl, blocks⟩
            exact ⟨blocks, rfl⟩
    · simp [kept, Bool.eq_false_iff.mpr opened, eio_ne]
  · simp [Bool.eq_false_iff.mpr kept, eio_ne]

/-- A negative number of bytes is copied, or the arguments are refused with a non-zero code, or the record is
that of the parts that the lengths reach. -/
theorem wrapRecordInt_cases (W : CStr) (S : Salt) (P : CStr) :
    wrapRecordInt nss uninit W S P = none ∨
      (∃ rc, rc ≠ 0 ∧ wrapRecordInt nss uninit W S P = some (.error rc)) ∨
      (0 ≤ passphraseSize W ∧ 0 ≤ passphraseSize P ∧ ∃ r,
        wrapRecord nss uninit (reachedPart W) S (reachedPart P) = .ok r ∧
        wrapRecordInt nss uninit W S P = some (.ok r)) := by
  rcases lt_or_ge (maxPassphraseBytes : ℤ) (passphraseSize P) with long | fits
  · have refused : wrapRecordInt nss uninit W S P = some (.error (-eio)) := by rw [wrapRecordInt, if_pos long]
    exact .inr (.inl ⟨_, by decide, refused⟩)
  rcases lt_or_ge (passphraseSize W) 0 with negative | nonnegW
  · left
    rw [wrapRecordInt, if_neg (not_lt.mpr fits), generatePassphraseSigInt, if_pos negative]
  rcases lt_or_ge (passphraseSize P) 0 with negative | nonnegP
  · have gen := generatePassphraseSigInt_of_nonneg nss S nonnegW
    rcases result : generatePassphraseSig nss S (reachedPart W) with rc | s
    · obtain rfl := generatePassphraseSig_error nss result
      rw [result] at gen
      have refused : wrapRecordInt nss uninit W S P =
          some (.error (if -einval < 0 then -einval else -(-einval))) := by
        rw [wrapRecordInt, if_neg (not_lt.mpr fits), gen]
      exact .inr (.inl ⟨_, by decide, refused⟩)
    · rw [result] at gen
      left
      rw [wrapRecordInt, if_neg (not_lt.mpr fits), gen]
      exact if_pos negative
  · right
    rw [wrapRecordInt_of_nonneg nonnegW nonnegP]
    rcases record : wrapRecord nss uninit (reachedPart W) S (reachedPart P) with rc | r
    · exact .inl ⟨rc, wrapRecord_error uninit record, rfl⟩
    · exact .inr ⟨nonnegW, nonnegP, r, rfl, rfl⟩

/-- **When a rewrap loses nothing.**  The wrapped passphrase survives exactly when the arguments are
refused before the file is touched, or the length of the passphrase is not seen as negative and the outcomes
of the calls let the old file or the new record survive. -/
theorem rewrap_iff (io : WriteIo) (old : List UInt8) (W : CStr) (S : Salt) (P : CStr) :
    Rewrapped P (wrapRecordInt nss uninit W S P) old
        (wrapPassphraseInt nss uninit io (some old) W S P) ↔
      (∃ rc, wrapRecordInt nss uninit W S P = some (.error rc)) ∨
        (P.length % 2 ^ 32 < 2 ^ 31 ∧ ∃ s, generatePassphraseSigInt nss S W = some (.ok s) ∧
          io.Survives old s.sig P) := by
  rw [← passphraseSize_nonneg]
  unfold wrapPassphraseInt
  rcases wrapRecordInt_cases uninit W S P with faults | ⟨rc, failed, refused⟩ | ⟨nonnegW, nonnegP, r, reached, record⟩
  · rw [faults]
    refine iff_of_false ?_ ?_
    · rintro ⟨rc, file, returned, -⟩
      cases returned
    · rintro (⟨rc, refused⟩ | ⟨nonnegP, s, gen, -⟩)
      · cases refused
      · have nonnegW : 0 ≤ passphraseSize W := by
          by_contra negative
          rw [generatePassphraseSigInt, if_pos (not_le.mp negative)] at gen
          cases gen
        rw [wrapRecordInt_of_nonneg nonnegW nonnegP] at faults
        cases faults
  · rw [refused]
    exact iff_of_true ⟨rc, some old, rfl, .inr ⟨failed, rfl⟩⟩ (.inl ⟨rc, rfl⟩)
  · obtain ⟨sig, sizes⟩ := wrapRecord_sizes uninit reached
    have fits : (reachedPart P).length ≤ maxPassphraseBytes := by
      by_contra long
      rw [wrapRecord, if_pos (not_le.mp long)] at reached
      cases reached
    rw [record, Option.map_some]
    refine (rewrapped_replaceFile_iff sizes nonnegP fits).trans ?_
    obtain ⟨s, gen, same⟩ : ∃ s, generatePassphraseSig nss S (reachedPart W) = .ok s ∧ s.sig = r.sig := by
      rcases gen : generatePassphraseSig nss S (reachedPart W) with rc | s
      · rw [gen] at sig
        cases sig
      · rw [gen] at sig
        exact ⟨s, rfl, Except.ok.inj sig⟩
    rw [generatePassphraseSigInt_of_nonneg nss S nonnegW, gen]
    constructor
    · intro survives
      exact .inr ⟨nonnegP, s, rfl, same ▸ survives⟩
    · rintro (⟨rc, refused⟩ | ⟨-, s', gen', survives⟩)
      · cases refused
      · obtain rfl := Except.ok.inj (Option.some.inj gen')
        exact same ▸ survives

/-- An `open` that fails after the `unlink` leaves no file at all. -/
theorem rewrap_open_fails :
    ¬ Rewrapped "x" (wrapRecordInt plainNss (.replicate 16 170) "w" (.replicate 8 0) "x") [1, 2, 3]
      (wrapPassphraseInt plainNss (.replicate 16 170) ⟨true, false, some 16, some 16⟩
        (some [1, 2, 3]) "w" (.replicate 8 0) "x") := by
  have fitsW : (lit "w").length ≤ maxPassphraseBytes := by decide
  have fitsP : (lit "x").length ≤ maxPassphraseBytes := by decide
  obtain ⟨w, gen⟩ := generatePassphraseSig_ok plainNss (fun _ => rfl) (.replicate 8 0) fitsW
  obtain ⟨out, -, -, record⟩ := wrapRecord_ok (.replicate 16 170) aesEcb_plainNss fitsP gen
  have lost : replaceFile ⟨true, false, some 16, some 16⟩ (some [1, 2, 3]) ⟨w.sig, out⟩ =
      (-eio, none) := rfl
  rw [wrapPassphraseInt_of_fits fitsW fitsP, wrapPassphrase_of_record _ record, lost, rewrapped_some]
  rintro (⟨zero, -⟩ | ⟨-, kept⟩)
  · exact absurd zero (by decide)
  · cases kept

end Ecryptfs
