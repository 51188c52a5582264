import Ecryptfs.Passphrase.WrapProof

/-!
# Wrapping a passphrase file

`ecryptfs_wrap_passphrase_file` reads a passphrase from a file, wraps it into another one and deletes the
first.  At most 64 bytes are read, and nothing is said when there are more; what is read is taken for a C
string, with a newline at its end if there was one.  The file is deleted whenever wrapping succeeds, so
that `wrapPassphraseFile_iff` says for which contents and lengths of the wrapping passphrase nothing is lost.
-/

namespace Ecryptfs

/-- The outcomes of the system calls of `ecryptfs_wrap_passphrase_file`: on the source, and on the file that
is written. -/
structure WrapFileIo where
  openSrc : Bool
  readSrc : Option ℕ
  unlinkSrc : Bool
  dest : WriteIo

/-- Every `read` and every `write` transfers all requested bytes. -/
structure WrapFileIo.Complete (io : WrapFileIo) : Prop where
  read : ∃ k, io.readSrc = some k ∧ maxPassphraseBytes ≤ k
  write : ∀ P : CStr, P.length ≤ maxPassphraseBytes → io.dest.Complete P

/-- The return value and the two files afterwards. -/
structure WrapFileResult where
  rc : ℤ
  src : Option (List UInt8)
  dest : Option (List UInt8)
  deriving DecidableEq

/-- `ecryptfs_wrap_passphrase_file` on the bytes that are taken for the wrapping passphrase, on a source that
exists and is another file than the destination. -/
def wrapPassphraseFile (nss : Nss) (uninit : Vector UInt8 16) (io : WrapFileIo)
    (dest : Option (List UInt8)) (wrappingPassphrase : CStr) (salt : Salt) (src : List UInt8) :
    WrapFileResult :=
  if io.openSrc = false then { rc := -eio, src := some src, dest := dest }
  else match transfer io.readSrc (src.take maxPassphraseBytes) with
    -- the newline is looked for only in this branch, which has no use for the buffer
    | none => { rc := -eio, src := some src, dest := dest }
    | some read =>
      let decryptedPassphrase := read ++ List.replicate (maxPassphraseBytes + 1 - read.length) 0
      let wrapped := wrapPassphrase nss uninit io.dest dest wrappingPassphrase salt
        (cString decryptedPassphrase)
      if wrapped.1 = 0 then
        { rc := 0, src := if io.unlinkSrc then none else some src, dest := wrapped.2 }
      else { rc := -eio, src := some src, dest := wrapped.2 }

/-- `ecryptfs_wrap_passphrase_file` with a wrapping passphrase of any length, or `none` if a negative number of
bytes is copied. -/
def wrapPassphraseFileInt (nss : Nss) (uninit : Vector UInt8 16) (io : WrapFileIo)
    (dest : Option (List UInt8)) (wrappingPassphrase : CStr) (salt : Salt) (src : List UInt8) :
    Option WrapFileResult :=
  if io.openSrc = false then some { rc := -eio, src := some src, dest := dest }
  else match transfer io.readSrc (src.take maxPassphraseBytes) with
    | none => some { rc := -eio, src := some src, dest := dest }
    | some read =>
      let decryptedPassphrase := read ++ List.replicate (maxPassphraseBytes + 1 - read.length) 0
      (wrapPassphraseInt nss uninit io.dest dest wrappingPassphrase salt
        (cString decryptedPassphrase)).map fun wrapped =>
          if wrapped.1 = 0 then
            { rc := 0, src := if io.unlinkSrc then none else some src, dest := wrapped.2 }
          else { rc := -eio, src := some src, dest := wrapped.2 }

/-- The content of a file without a newline at its end. -/
def withoutNewline (content : List UInt8) : List UInt8 :=
  if content.getLast? = some 10 then content.dropLast else content

/-- A content that a wrapped-passphrase file can hold completely. -/
def Storable (content : List UInt8) : Prop :=
  withoutNewline content ≠ [] ∧ (withoutNewline content).length ≤ maxPassphraseBytes ∧
    0 ∉ withoutNewline content

/-- A passphrase file is deleted only if its content comes back from the wrapped passphrase, and kept with
an error if it cannot be stored. -/
structure NothingLost (nss : Nss) (W : CStr) (S : Salt) (content : List UInt8) (result : Option WrapFileResult) :
    Prop where
  wrapped : ∀ r, result = some r → r.rc = 0 →
    ∃ out, unwrapPassphraseInt nss .complete r.dest W S = some (.ok out) ∧
      cString out = withoutNewline content
  kept : ∀ r, result = some r → r.rc ≠ 0 → r.src = some content
  refused : ¬ Storable content → ∃ r, result = some r ∧ r.rc ≠ 0

variable {nss : Nss} {uninit : Vector UInt8 16} {io : WrapFileIo} {dest : Option (List UInt8)} {W : CStr}
  {S : Salt} {content : List UInt8}

/-! ## When wrapping succeeds -/

/-- With complete writes, wrapping fails only for want of a text, for its length or that of the wrapping
passphrase, or because the file cannot be created. -/
theorem wrapPassphrase_rc (ecb : AesEcb nss) (uninit : Vector UInt8 16) {io : WriteIo} {P : CStr}
    (complete : io.Complete P) (fitsP : P.length ≤ maxPassphraseBytes) (dest : Option (List UInt8)) (W : CStr)
    (S : Salt) :
    (wrapPassphrase nss uninit io dest W S P).1 = 0 ↔
      P ≠ [] ∧ W.length ≤ maxPassphraseBytes ∧ unlinked io dest = none ∧ io.openOk = true := by
  constructor
  · intro done
    rcases result : wrapPassphrase nss uninit io dest W S P with ⟨rc, dest'⟩
    rw [result] at done
    subst done
    obtain ⟨w, -, gen, -, nonempty, -⟩ := wrapPassphrase_success uninit ecb complete result
    obtain ⟨out, -, -, record⟩ := wrapRecord_ok uninit ecb fitsP gen
    rw [wrapPassphrase_of_record uninit record] at result
    refine ⟨nonempty, ?_, replaceFile_created result⟩
    by_contra long
    rw [generatePassphraseSig, if_pos (not_le.mp long)] at gen
    cases gen
  · rintro ⟨nonempty, fitsW, gone, opened⟩
    obtain ⟨w, gen⟩ := generatePassphraseSig_ok nss ecb.hash S fitsW
    obtain ⟨out, -, -, record⟩ := wrapRecord_ok uninit ecb fitsP gen
    rw [wrapPassphrase_of_record uninit record,
      replaceFile_complete (wrapRecord_sizes uninit record).2 complete nonempty gone opened]

/-- What is wrapped of a content: the text in its first 64 bytes. -/
def wrappedText (content : List UInt8) : CStr := cString (content.take maxPassphraseBytes)

theorem length_wrappedText (content : List UInt8) :
    (wrappedText content).length ≤ maxPassphraseBytes :=
  (cString_begins _).length_le.trans (List.length_take_le _ _)

theorem wrappedText_ne_nil : wrappedText content ≠ [] ↔ content ≠ [] ∧ content.head? ≠ some 0 := by
  rcases content with _ | ⟨c, content⟩
  · simp [wrappedText, cString]
  · by_cases zero : c = 0
    · simp [wrappedText, cString, maxPassphraseBytes, zero]
    · simp [wrappedText, cString, maxPassphraseBytes, zero]

/-- The outcomes and contents on which the source is deleted if the wrapping passphrase is accepted: it can be
opened and does not begin with a NUL, and the destination can be created. -/
structure WrapFileIo.Reaches (io : WrapFileIo) (dest : Option (List UInt8)) (content : List UInt8) : Prop where
  openSrc : io.openSrc = true
  nonempty : content ≠ []
  text : content.head? ≠ some 0
  gone : unlinked io.dest dest = none
  created : io.dest.openOk = true

/-- What a complete read gets of a source that is not empty. -/
theorem read_source (complete : io.Complete) (nonempty : content ≠ []) :
    transfer io.readSrc (content.take maxPassphraseBytes) = some (content.take maxPassphraseBytes) := by
  obtain ⟨k, isRead, whole⟩ := complete.read
  have some_ : content.take maxPassphraseBytes ≠ [] := by
    rw [Ne, List.take_eq_nil_iff]
    rintro (zero | empty)
    · exact absurd zero (by decide)
    · exact nonempty empty
  rw [isRead]
  exact transfer_all ((List.length_take_le _ _).trans whole) some_

/-- A source that can be opened and is not empty is wrapped as the text in its first 64 bytes. -/
theorem wrapPassphraseFile_read (complete : io.Complete) (opened : io.openSrc = true)
    (nonempty : content ≠ []) :
    wrapPassphraseFile nss uninit io dest W S content =
      (let wrapped := wrapPassphrase nss uninit io.dest dest W S (wrappedText content)
      if wrapped.1 = 0 then
        { rc := 0, src := if io.unlinkSrc then none else some content, dest := wrapped.2 }
      else { rc := -eio, src := some content, dest := wrapped.2 }) := by
  unfold wrapPassphraseFile
  rw [if_neg (by simp [opened]), read_source complete nonempty]
  dsimp only
  rw [cString_append_zeros, ← wrappedText]

theorem WrapFileIo.Reaches.wraps (reaches : io.Reaches dest content) (fits : W.length ≤ maxPassphraseBytes)
    (ecb : AesEcb nss) (uninit : Vector UInt8 16) (complete : io.Complete) (S : Salt) :
    (wrapPassphrase nss uninit io.dest dest W S (wrappedText content)).1 = 0 :=
  (wrapPassphrase_rc ecb uninit (complete.write _ (length_wrappedText content))
    (length_wrappedText content) dest W S).mpr
      ⟨wrappedText_ne_nil.mpr ⟨reaches.nonempty, reaches.text⟩, fits, reaches.gone, reaches.created⟩

theorem wrapPassphraseFile_rc (ecb : AesEcb nss) (uninit : Vector UInt8 16) (complete : io.Complete)
    (dest : Option (List UInt8)) (W : CStr) (S : Salt) (content : List UInt8) :
    (wrapPassphraseFile nss uninit io dest W S content).rc = 0 ↔
      W.length ≤ maxPassphraseBytes ∧ io.Reaches dest content := by
  have eio_ne : (-eio : ℤ) ≠ 0 := by decide
  have written := complete.write _ (length_wrappedText content)
  by_cases opened : io.openSrc = true
  · by_cases nonempty : content = []
    · have failed : (wrapPassphraseFile nss uninit io dest W S content).rc = -eio := by
        simp [wrapPassphraseFile, opened, nonempty, transfer_nil]
      rw [failed]
      exact iff_of_false eio_ne fun reaches => reaches.2.nonempty nonempty
    · rw [wrapPassphraseFile_read complete opened nonempty]
      dsimp only
      by_cases done : (wrapPassphrase nss uninit io.dest dest W S (wrappedText content)).1 = 0
      · rw [if_pos done]
        obtain ⟨some_, fits, gone, created⟩ :=
          (wrapPassphrase_rc ecb uninit written (length_wrappedText content) dest W S).mp done
        exact iff_of_true rfl ⟨fits, opened, nonempty, (wrappedText_ne_nil.mp some_).2, gone, created⟩
      · rw [if_neg done]
        exact iff_of_false eio_ne fun reaches => done (reaches.2.wraps reaches.1 ecb uninit complete S)
  · have failed : (wrapPassphraseFile nss uninit io dest W S content).rc = -eio := by
      simp [wrapPassphraseFile, Bool.eq_false_iff.mpr opened]
    rw [failed]
    exact iff_of_false eio_ne fun reaches => opened reaches.2.openSrc

/-! ## What is lost -/

/-- The contents that are the text in their first 64 bytes, up to a newline at their end. -/
def ReadWhole (content : List UInt8) : Prop :=
  0 ∉ content ∧ (content.length ≤ maxPassphraseBytes ∧ content.getLast? ≠ some 10 ∨
    content.length = maxPassphraseBytes + 1 ∧ content.getLast? = some 10)

theorem withoutNewline_append (text : List UInt8) : withoutNewline (text ++ [10]) = text := by
  simp [withoutNewline]

/-- A content ends with a newline, or there is none to leave out. -/
theorem withoutNewline_cases (content : List UInt8) :
    (content.getLast? = some 10 ∧ content = withoutNewline content ++ [10]) ∨
      (content.getLast? ≠ some 10 ∧ withoutNewline content = content) := by
  by_cases newline : content.getLast? = some 10
  · left
    obtain ⟨text, rfl⟩ := List.getLast?_eq_some_iff.mp newline
    exact ⟨newline, by rw [withoutNewline_append]⟩
  · exact .inr ⟨newline, if_neg newline⟩

theorem wrappedText_eq_iff : wrappedText content = withoutNewline content ↔ ReadWhole content := by
  have short := length_wrappedText content
  have noNul : 0 ∉ wrappedText content := notMem_cString _
  unfold ReadWhole
  rcases withoutNewline_cases content with ⟨newline, ends⟩ | ⟨newline, whole⟩
  · simp only [newline, ne_eq, not_true_eq_false, and_false, and_true, false_or]
    generalize withoutNewline content = text at ends
    subst ends
    have size : (text ++ [10]).length = text.length + 1 := by simp
    constructor
    · intro same
      rw [same] at short noNul
      refine ⟨by simpa using noNul, ?_⟩
      by_contra other
      -- a shorter text is read together with its newline
      have all : wrappedText (text ++ [10]) = text ++ [10] := by
        rw [wrappedText, List.take_of_length_le (by omega)]
        exact cString_of_notMem (by simpa using noNul)
      rw [same] at all
      simp at all
    · rintro ⟨noNul, long⟩
      rw [wrappedText, List.take_left' (by omega)]
      exact cString_of_notMem fun among => noNul (List.mem_append_left _ among)
  · rw [whole]
    simp only [ne_eq, newline, not_false_eq_true, and_true, and_false, or_false]
    constructor
    · intro same
      rw [same] at short noNul
      exact ⟨noNul, short⟩
    · rintro ⟨noNul, fits⟩
      rw [wrappedText, List.take_of_length_le fits]
      exact cString_of_notMem noNul

/-- A source that is deleted comes back as the text that was read of it. -/
theorem unwrap_wrapPassphraseFile (ecb : AesEcb nss) (complete : io.Complete)
    (done : (wrapPassphraseFile nss uninit io dest W S content).rc = 0) :
    ∃ out, unwrapPassphrase nss .complete (wrapPassphraseFile nss uninit io dest W S content).dest W S =
      .ok out ∧ cString out = wrappedText content := by
  obtain ⟨fitsW, reaches⟩ := (wrapPassphraseFile_rc ecb uninit complete dest W S content).mp done
  have written := complete.write _ (length_wrappedText content)
  have wraps := reaches.wraps fitsW ecb uninit complete S
  rw [wrapPassphraseFile_read complete reaches.openSrc reaches.nonempty]
  dsimp only
  rw [if_pos wraps]
  rcases result : wrapPassphrase nss uninit io.dest dest W S (wrappedText content) with ⟨rc, dest'⟩
  obtain rfl : rc = 0 := by rw [← wraps, result]
  obtain ⟨w, out, gen, fits, nonempty, enc, len, rfl⟩ := wrapPassphrase_success uninit ecb written result
  refine ⟨_, unwrap_record ecb gen fits nonempty enc len, ?_⟩
  rw [cString_append_zeros]
  exact cString_of_notMem (notMem_cString _)

/-- The source is kept with every error. -/
theorem wrapPassphraseFile_kept (failed : (wrapPassphraseFile nss uninit io dest W S content).rc ≠ 0) :
    (wrapPassphraseFile nss uninit io dest W S content).src = some content := by
  unfold wrapPassphraseFile at failed ⊢
  by_cases opened : io.openSrc = false
  · rw [if_pos opened]
  · rw [if_neg opened] at failed ⊢
    rcases read : transfer io.readSrc (content.take maxPassphraseBytes) with _ | bytes
    · rfl
    · rw [read] at failed
      dsimp only at failed ⊢
      by_cases done : (wrapPassphrase nss uninit io.dest dest W S (cString
          (bytes ++ List.replicate (maxPassphraseBytes + 1 - bytes.length) 0))).1 = 0
      · rw [if_pos done] at failed
        exact absurd rfl failed
      · rw [if_neg done]

/-- A wrapping passphrase whose length is not seen as negative is used as far as its length reaches. -/
theorem wrapPassphraseFileInt_of_nonneg (nonneg : 0 ≤ passphraseSize W) :
    wrapPassphraseFileInt nss uninit io dest W S content =
      some (wrapPassphraseFile nss uninit io dest (reachedPart W) S content) := by
  unfold wrapPassphraseFileInt wrapPassphraseFile
  by_cases opened : io.openSrc = false
  · rw [if_pos opened, if_pos opened]
  · rw [if_neg opened, if_neg opened]
    rcases read : transfer io.readSrc (content.take maxPassphraseBytes) with _ | bytes
    · rfl
    · have short : (cString (bytes ++ List.replicate (maxPassphraseBytes + 1 - bytes.length) 0)).length ≤
          maxPassphraseBytes := by
        have sizes := ((transfer_front read).length_le).trans (List.length_take_le _ _)
        rw [cString_append_zeros]
        exact (cString_begins _).length_le.trans sizes
      dsimp only
      rw [wrapPassphraseInt_of_nonneg nonneg (nonneg_of_fits short), reachedPart_of_fits short, Option.map_some]

/-- With a length that is seen as negative the copy faults as soon as the source has been read. -/
theorem wrapPassphraseFileInt_of_neg (complete : io.Complete) (negative : passphraseSize W < 0) :
    wrapPassphraseFileInt nss uninit io dest W S content =
      if io.openSrc = true ∧ content ≠ [] then none
      else some { rc := -eio, src := some content, dest := dest } := by
  unfold wrapPassphraseFileInt
  by_cases opened : io.openSrc = true
  · rw [if_neg (by simp [opened])]
    by_cases nonempty : content = []
    · simp [nonempty, transfer_nil]
    · have short : ¬ passphraseSize (wrappedText content) > maxPassphraseBytes := by
        have fits := length_wrappedText content
        rw [passphraseSize_of_fits fits]
        omega
      have faults : wrapRecordInt nss uninit W S (wrappedText content) = none := by
        rw [wrapRecordInt, if_neg short, generatePassphraseSigInt, if_pos negative]
      have reads : io.openSrc = true ∧ content ≠ [] := ⟨opened, nonempty⟩
      rw [read_source complete nonempty, if_pos reads]
      dsimp only
      rw [cString_append_zeros, ← wrappedText, wrapPassphraseInt, faults, Option.map_none, Option.map_none]
  · rw [if_pos (by simpa using opened), if_neg fun both => opened both.1]

/-- On the part of the wrapping passphrase that is reached, nothing is lost if and only if a file that is
deleted is the text in its first 64 bytes. -/
theorem nothingLost_iff_of_nonneg (ecb : AesEcb nss) (complete : io.Complete) (nonneg : 0 ≤ passphraseSize W) :
    NothingLost nss W S content (some (wrapPassphraseFile nss uninit io dest (reachedPart W) S content)) ↔
      ((wrapPassphraseFile nss uninit io dest (reachedPart W) S content).rc = 0 → ReadWhole content) := by
  rw [← wrappedText_eq_iff]
  constructor
  · intro law done
    obtain ⟨out, back, text⟩ := unwrap_wrapPassphraseFile ecb complete done
    obtain ⟨out', back', same⟩ := law.wrapped _ rfl done
    rw [unwrapPassphraseInt_of_nonneg nonneg, back] at back'
    rw [← text, Except.ok.inj (Option.some.inj back'), same]
  · intro whole
    refine ⟨?_, ?_, fun not => ⟨_, rfl, fun done => not ?_⟩⟩
    · rintro _ ⟨⟩ done
      obtain ⟨out, back, text⟩ := unwrap_wrapPassphraseFile ecb complete done
      exact ⟨out, by rw [unwrapPassphraseInt_of_nonneg nonneg, back], text.trans (whole done)⟩
    · rintro _ ⟨⟩ failed
      exact wrapPassphraseFile_kept failed
    · obtain ⟨-, reaches⟩ := (wrapPassphraseFile_rc ecb uninit complete dest _ S content).mp done
      rw [Storable, ← whole done]
      exact ⟨wrappedText_ne_nil.mpr ⟨reaches.nonempty, reaches.text⟩, length_wrappedText _,
        notMem_cString _⟩

/-- **Which passphrase files are lost.**  With complete reads and writes, a file is deleted only if its
content comes back from the wrapped passphrase, and kept with an error if it cannot be stored, exactly
when two things hold.  Unless the call fails for another reason, the content is the text in its first 64
bytes: it has no NUL, and either at most 64 bytes without a newline at the end or 64 bytes and a newline.  And
if the length of the wrapping passphrase is seen as negative, where the copy of it faults, a content that is read
could be stored. -/
theorem wrapPassphraseFile_iff (ecb : AesEcb nss) (uninit : Vector UInt8 16) {io : WrapFileIo}
    (complete : io.Complete) (dest : Option (List UInt8)) (W : CStr) (S : Salt) (content : List UInt8) :
    NothingLost nss W S content (wrapPassphraseFileInt nss uninit io dest W S content) ↔
      (W.length % 2 ^ 32 ≤ maxPassphraseBytes → io.Reaches dest content → ReadWhole content) ∧
        (2 ^ 31 ≤ W.length % 2 ^ 32 → io.openSrc = true → content ≠ [] → Storable content) := by
  rcases lt_or_ge (passphraseSize W) 0 with negative | nonneg
  · have upper : 2 ^ 31 ≤ W.length % 2 ^ 32 := by
      rw [← not_lt, ← passphraseSize_nonneg]
      exact not_le.mpr negative
    have large : ¬ W.length % 2 ^ 32 ≤ maxPassphraseBytes := by
      unfold maxPassphraseBytes
      omega
    simp only [large, upper, false_imp_iff, true_imp_iff, true_and]
    rw [wrapPassphraseFileInt_of_neg complete negative]
    split_ifs with reads
    · constructor
      · intro law _ _
        by_contra not
        obtain ⟨r, returned, -⟩ := law.refused not
        cases returned
      · intro storable
        refine ⟨?_, ?_, fun not => absurd (storable reads.1 reads.2) not⟩
        · rintro r ⟨⟩
        · rintro r ⟨⟩
    · have failed : (-eio : ℤ) ≠ 0 := by decide
      refine iff_of_true ⟨?_, ?_, fun _ => ⟨_, rfl, failed⟩⟩ fun opened nonempty =>
        absurd ⟨opened, nonempty⟩ reads
      · rintro _ ⟨⟩ done
        exact absurd done failed
      · rintro _ ⟨⟩ -
        rfl
  · have lower : ¬ 2 ^ 31 ≤ W.length % 2 ^ 32 := not_le.mpr ((passphraseSize_nonneg W).mp nonneg)
    rw [wrapPassphraseFileInt_of_nonneg nonneg, nothingLost_iff_of_nonneg ecb complete nonneg,
      wrapPassphraseFile_rc ecb uninit complete dest _ S content, length_reachedPart_mod nonneg]
    simp only [lower, false_imp_iff, and_true, and_imp]

/-- All calls succeed and transfer all that is asked for. -/
def wrapFileSucceeds : WrapFileIo := ⟨true, some 64, true, ⟨true, true, some 16, some 64⟩⟩

theorem wrapFileSucceeds_complete : wrapFileSucceeds.Complete where
  read := ⟨64, rfl, le_rfl⟩
  write _ fits := ⟨⟨16, rfl, le_rfl⟩, 64, rfl, paddedBytes_le fits⟩

/-- A file without a newline comes back. -/
theorem wrapPassphraseFile_plain :
    NothingLost plainNss "w" (.replicate 8 0) "secret"
      (wrapPassphraseFileInt plainNss (.replicate 16 170) wrapFileSucceeds none "w" (.replicate 8 0)
        "secret") :=
  (wrapPassphraseFile_iff aesEcb_plainNss (.replicate 16 170) wrapFileSucceeds_complete none "w"
    (.replicate 8 0) "secret").mpr
      ⟨fun _ _ => ⟨by decide, .inl ⟨by decide, by decide⟩⟩, fun upper => absurd upper (by decide)⟩

/-- The newline that ends a file becomes a part of the passphrase. -/
theorem wrapPassphraseFile_newline :
    ¬ NothingLost plainNss "w" (.replicate 8 0) "secret\n"
      (wrapPassphraseFileInt plainNss (.replicate 16 170) wrapFileSucceeds none "w" (.replicate 8 0)
        "secret\n") := by
  have fits : (lit "w").length ≤ maxPassphraseBytes := by decide
  have nonneg : 0 ≤ passphraseSize "w" := nonneg_of_fits fits
  rw [wrapPassphraseFileInt_of_nonneg nonneg,
    nothingLost_iff_of_nonneg aesEcb_plainNss wrapFileSucceeds_complete nonneg,
    wrapPassphraseFile_rc aesEcb_plainNss (.replicate 16 170) wrapFileSucceeds_complete, reachedPart_of_fits fits]
  intro law
  obtain ⟨-, whole⟩ := law ⟨fits, rfl, by decide, by decide, rfl, rfl⟩
  exact absurd whole (by decide)

end Ecryptfs
