import Ecryptfs.Passphrase.Signature

/-!
# Wrapping the mount passphrase

`wrapPassphrase` encrypts the mount passphrase under a key derived from the wrapping passphrase and
replaces the wrapped-passphrase file by the sixteen characters of the wrapping signature followed by
the encrypted blocks; `unwrapPassphrase` reads such a file back.  The file is `none` when it does
not exist.  Each system call has its outcome as an argument: a call of `write` or `read` that does
not fail transfers at most as many bytes as the outcome says.  The lengths of both passphrases are kept
in an `int`: `wrapPassphraseInt` and `unwrapPassphraseInt` are the functions for passphrases of any
length, and work on the parts that the lengths reach.
-/

namespace Ecryptfs

/-- The outcomes of the system calls by which the file is replaced.  A `write` is `none` when it
returns `-1`, and `some k` when it transfers up to `k` of the bytes asked for. -/
structure WriteIo where
  unlinkOk : Bool
  openOk : Bool
  writeSig : Option ℕ
  writePassphrase : Option ℕ

/-- The outcomes of the system calls by which the file is read. -/
structure ReadIo where
  openOk : Bool
  readSig : Option ℕ
  readPassphrase : Option ℕ

/-- The bytes that a call of `write` or `read` with the given outcome moves, out of those on offer;
`none` when the call returns at most zero, which is how the callers test for an error. -/
def transfer (outcome : Option ℕ) (bytes : List UInt8) : Option (List UInt8) :=
  (outcome.map fun k => bytes.take k).filter fun moved => moved ≠ []

/-- `PK11_CipherOp`: the output has to fit into `maxout` bytes. -/
def cipherOp (op : List UInt8 → Option (List UInt8)) (maxout : ℕ) (input : List UInt8) :
    Option (List UInt8) :=
  (op input).filter fun out => out.length ≤ maxout

/-- The buffer `padded_decrypted_passphrase`: its first 65 bytes are zeroed before the passphrase is
copied in, the sixteen after them are not initialized. -/
def paddedBuffer (uninit : Vector UInt8 16) (passphrase : CStr) : List UInt8 :=
  passphrase ++ List.replicate (maxPassphraseBytes + 1 - passphrase.length) 0 ++ uninit.toList

/-- `decrypted_passphrase_bytes` after rounding up to whole cipher blocks. -/
def paddedBytes (passphrase : CStr) : ℕ :=
  if passphrase.length % aesBlockSize ≠ 0 then
    passphrase.length + (aesBlockSize - passphrase.length % aesBlockSize)
  else passphrase.length

/-- The signature and the encrypted passphrase that make up a wrapped-passphrase file. -/
structure WrappedRecord where
  sig : CStr
  encrypted : List UInt8

def WrappedRecord.bytes (r : WrappedRecord) : List UInt8 := r.sig ++ r.encrypted

section

variable (nss : Nss)

/-- The part of `ecryptfs_wrap_passphrase` before it touches the file, on the bytes that are taken for the
passphrases. -/
def wrapRecord (uninit : Vector UInt8 16) (wrappingPassphrase : CStr) (wrappingSalt : Salt)
    (decryptedPassphrase : CStr) : Except ℤ WrappedRecord :=
  if maxPassphraseBytes < decryptedPassphrase.length then .error (-eio)
  else match generatePassphraseSig nss wrappingSalt wrappingPassphrase with
    | .error rc => .error (if rc < 0 then rc else -rc)
    | .ok w =>
      let key := w.fekek.toList.take aesKeyBytes
      if nss.importSymKey key = false then .error (-eio)
      else
        let input := (paddedBuffer uninit decryptedPassphrase).take (paddedBytes decryptedPassphrase)
        match cipherOp (nss.encrypt key) (maxPassphraseBytes + aesBlockSize) input with
        | none => .error (-eio)
        | some out =>
          match cipherOp nss.encryptFinal (maxPassphraseBytes + aesBlockSize - out.length) key with
          | none => .error (-eio)
          | some tail =>
            if paddedBytes decryptedPassphrase - (out.length + tail.length : ℤ) ≠ 0 then
              .error (-eio)
            else .ok { sig := w.sig, encrypted := out ++ tail }

/-- The file after `unlink`, whose return value is not looked at. -/
def unlinked (io : WriteIo) (file : Option (List UInt8)) : Option (List UInt8) :=
  if io.unlinkOk then none else file

/-- The part of `ecryptfs_wrap_passphrase` that replaces the file: `unlink`, `open` with `O_CREAT`
and `O_EXCL`, and two calls of `write` that are only checked for a result of at most zero. -/
def replaceFile (io : WriteIo) (file : Option (List UInt8)) (record : WrappedRecord) :
    ℤ × Option (List UInt8) :=
  match unlinked io file with
  | some old => (-eio, some old)
  | none =>
    if io.openOk = false then (-eio, none)
    else match transfer io.writeSig record.sig with
      | none => (-eio, some [])
      | some sig =>
        match transfer io.writePassphrase record.encrypted with
        | none => (-eio, some sig)
        | some encrypted => (0, some (sig ++ encrypted))

/-- `ecryptfs_wrap_passphrase` on the bytes that are taken for the passphrases: the return value and the file
afterwards. -/
def wrapPassphrase (uninit : Vector UInt8 16) (io : WriteIo) (file : Option (List UInt8))
    (wrappingPassphrase : CStr) (wrappingSalt : Salt) (decryptedPassphrase : CStr) :
    ℤ × Option (List UInt8) :=
  match wrapRecord nss uninit wrappingPassphrase wrappingSalt decryptedPassphrase with
  | .error rc => (rc, file)
  | .ok record => replaceFile io file record

/-- `ecryptfs_unwrap_passphrase` on the bytes that are taken for the passphrase: the error, or the 65 bytes of
the caller's buffer. -/
def unwrapPassphrase (io : ReadIo) (file : Option (List UInt8)) (wrappingPassphrase : CStr)
    (wrappingSalt : Salt) : Except ℤ (List UInt8) :=
  match generatePassphraseSig nss wrappingSalt wrappingPassphrase with
  | .error rc => .error (if rc < 0 then rc else -rc)
  | .ok w =>
    match (if io.openOk then file else none) with
    | none => .error (-eio)
    | some content =>
      match transfer io.readSig (content.take sigSizeHex) with
      | none => .error (-eio)
      | some sig =>
        match transfer io.readPassphrase ((content.drop sig.length).take maxPassphraseBytes) with
        | none => .error (-eio)
        | some encrypted =>
          -- the buffer of the signature is zeroed before the read
          if (sig ++ List.replicate (sigSizeHex - sig.length) 0).take sigSizeHex ≠
              w.sig.take sigSizeHex then .error (-eio)
          else
            let key := w.fekek.toList.take aesKeyBytes
            if nss.importSymKey key = false then .error (-eio)
            else match cipherOp (nss.decrypt key) maxPassphraseBytes encrypted with
              | none => .error (-eio)
              | some out =>
                match cipherOp nss.decryptFinal (maxPassphraseBytes - out.length) key with
                | none => .error (-eio)
                | some tail =>
                  if encrypted.length - (out.length + tail.length : ℤ) ≠ 0 then .error (-eio)
                  else .ok (out ++ tail ++
                    List.replicate (maxPassphraseBytes + 1 - (out ++ tail).length) 0)

/-! ## Passphrases of any length -/

/-- The part of `ecryptfs_wrap_passphrase` before it touches the file, or `none` if it copies a negative number
of bytes. -/
def wrapRecordInt (uninit : Vector UInt8 16) (wrappingPassphrase : CStr) (wrappingSalt : Salt)
    (decryptedPassphrase : CStr) : Option (Except ℤ WrappedRecord) :=
  if passphraseSize decryptedPassphrase > maxPassphraseBytes then some (.error (-eio))
  else match generatePassphraseSigInt nss wrappingSalt wrappingPassphrase with
    | none => none
    | some (.error rc) => some (.error (if rc < 0 then rc else -rc))
    | some (.ok _) =>
      -- the passphrase is copied after the signature has been made
      if passphraseSize decryptedPassphrase < 0 then none
      else some (wrapRecord nss uninit (reachedPart wrappingPassphrase) wrappingSalt
        (reachedPart decryptedPassphrase))

/-- `ecryptfs_wrap_passphrase`. -/
def wrapPassphraseInt (uninit : Vector UInt8 16) (io : WriteIo) (file : Option (List UInt8))
    (wrappingPassphrase : CStr) (wrappingSalt : Salt) (decryptedPassphrase : CStr) :
    Option (ℤ × Option (List UInt8)) :=
  (wrapRecordInt nss uninit wrappingPassphrase wrappingSalt decryptedPassphrase).map fun
    | .error rc => (rc, file)
    | .ok record => replaceFile io file record

/-- `ecryptfs_unwrap_passphrase`, or `none` if it copies a negative number of bytes. -/
def unwrapPassphraseInt (io : ReadIo) (file : Option (List UInt8)) (wrappingPassphrase : CStr)
    (wrappingSalt : Salt) : Option (Except ℤ (List UInt8)) :=
  if passphraseSize wrappingPassphrase < 0 then none
  else some (unwrapPassphrase nss io file (reachedPart wrappingPassphrase) wrappingSalt)

variable {nss} {uninit : Vector UInt8 16} {W P : CStr} {S : Salt}

/-- Without a negative length the record is that of the parts that are reached. -/
theorem wrapRecordInt_of_nonneg (nonnegW : 0 ≤ passphraseSize W) (nonnegP : 0 ≤ passphraseSize P) :
    wrapRecordInt nss uninit W S P = some (wrapRecord nss uninit (reachedPart W) S (reachedPart P)) := by
  rw [wrapRecordInt, generatePassphraseSigInt_of_nonneg nss S nonnegW]
  rcases lt_or_ge (maxPassphraseBytes : ℤ) (passphraseSize P) with long | fits
  · rw [if_pos long, wrapRecord, if_pos]
    rw [length_reachedPart]
    omega
  · have short : ¬ maxPassphraseBytes < (reachedPart P).length := by
      rw [length_reachedPart]
      omega
    rw [if_neg (not_lt.mpr fits)]
    rcases gen : generatePassphraseSig nss S (reachedPart W) with rc | w
    · rw [wrapRecord, if_neg short, gen]
    · dsimp only
      rw [if_neg (not_lt.mpr nonnegP)]

theorem wrapPassphraseInt_of_nonneg (nonnegW : 0 ≤ passphraseSize W) (nonnegP : 0 ≤ passphraseSize P)
    (io : WriteIo) (file : Option (List UInt8)) :
    wrapPassphraseInt nss uninit io file W S P =
      some (wrapPassphrase nss uninit io file (reachedPart W) S (reachedPart P)) := by
  have reached := @wrapRecordInt_of_nonneg nss uninit W P S nonnegW nonnegP
  rcases record : wrapRecord nss uninit (reachedPart W) S (reachedPart P) with rc | r
  · rw [record] at reached
    rw [wrapPassphraseInt, wrapPassphrase, reached, record, Option.map_some]
  · rw [record] at reached
    rw [wrapPassphraseInt, wrapPassphrase, reached, record, Option.map_some]

theorem nonneg_of_fits (fits : P.length ≤ maxPassphraseBytes) : 0 ≤ passphraseSize P := by
  rw [passphraseSize_of_fits fits]
  exact Int.natCast_nonneg _

/-- Passphrases that fit are wrapped as a whole. -/
theorem wrapPassphraseInt_of_fits (fitsW : W.length ≤ maxPassphraseBytes) (fitsP : P.length ≤ maxPassphraseBytes)
    (io : WriteIo) (file : Option (List UInt8)) :
    wrapPassphraseInt nss uninit io file W S P = some (wrapPassphrase nss uninit io file W S P) := by
  rw [wrapPassphraseInt_of_nonneg (nonneg_of_fits fitsW) (nonneg_of_fits fitsP), reachedPart_of_fits fitsW,
    reachedPart_of_fits fitsP]

theorem unwrapPassphraseInt_of_nonneg (nonneg : 0 ≤ passphraseSize W) (io : ReadIo)
    (file : Option (List UInt8)) :
    unwrapPassphraseInt nss io file W S = some (unwrapPassphrase nss io file (reachedPart W) S) :=
  if_neg (not_lt.mpr nonneg)

theorem unwrapPassphraseInt_of_fits (fits : W.length ≤ maxPassphraseBytes) (io : ReadIo)
    (file : Option (List UInt8)) :
    unwrapPassphraseInt nss io file W S = some (unwrapPassphrase nss io file W S) := by
  rw [unwrapPassphraseInt_of_nonneg (nonneg_of_fits fits), reachedPart_of_fits fits]

end

end Ecryptfs
