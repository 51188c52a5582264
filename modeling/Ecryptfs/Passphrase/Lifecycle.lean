import Ecryptfs.Lib.Simulation
import Ecryptfs.Passphrase.Tools

/-!
# The life of a wrapped passphrase

A mount passphrase is wrapped once; afterwards the wrapping passphrase changes with the password of the user,
and every login puts the keys of the mount passphrase into the keyring.  What the tools and the module for
PAM do with the file is told here by an abstract state, `WrappedFile`: there is no file, or one that nothing can be
taken out of, or a file that gives one passphrase for one wrapping passphrase.

As long as the files can be read and written, and no two of the wrapping passphrases that are used have the
same signature, every run of tools, logins and password changes does what this says (`vault_refines`).
-/

namespace Ecryptfs

open Simulation

/-! ## The abstract file -/

/-- What a wrapped-passphrase file is good for. -/
inductive WrappedFile where
  | absent
  | stub
  | holds (passphrase wrapping : CStr)
  deriving DecidableEq

namespace WrappedFile

/-- A passphrase is wrapped: an empty one replaces the file by one that is good for nothing. -/
def wrap (passphrase wrapping : CStr) (s : WrappedFile) : WrappedFile :=
  if maxPassphraseBytes < passphrase.length ∨ maxPassphraseBytes < wrapping.length then s
  else if passphrase = [] then .stub
  else .holds passphrase wrapping

/-- What comes out for a wrapping passphrase. -/
def opened (wrapping : CStr) : WrappedFile → Option CStr
  | .holds passphrase current => if wrapping = current then some passphrase else none
  | _ => none

/-- The wrapping passphrase is changed by one that opens the file. -/
def change (old new : CStr) (s : WrappedFile) : WrappedFile :=
  match s.opened old with
  | none => s
  | some passphrase => s.wrap passphrase new

/-- The wrapping passphrase of a file. -/
def wrappings : WrappedFile → List CStr
  | .holds _ wrapping => [wrapping]
  | _ => []

end WrappedFile

/-- The abstract state: what the file is good for, the file with the cleartext, and the keyring. -/
structure IdealVault where
  stored : WrappedFile
  cleartext : Option (List UInt8)
  keyring : Keyring

/-! ## What can happen -/

/-- What happens to the files and the keyring of a user: a tool is run, the user changes the password or logs in
(as far as the module for PAM comes to the wrapped passphrase), the setup leaves a cleartext passphrase, or
something else changes the keyring. -/
inductive VaultOp where
  | wrap (io : ToolIo) (args : List CStr)
  | rewrap (io : ToolIo) (args : List CStr)
  | unwrap (io : ToolIo) (args : List CStr)
  | insert (io : ToolIo) (adds : ℕ → AddCalls) (args : List CStr)
  | login (io : PamIo) (adds : ℕ → AddCalls) (passphrase : Option CStr)
  | change (io : PamIo) (old new : Option CStr)
  | leave (cleartext : List UInt8)
  | keyring (K : Keyring)

section

variable (nss : Nss) (S : Salt)

/-- A step of the program.  The functions for PAM have no end of their own. -/
def Vault.step (v : Vault) : VaultOp → Vault × Option ToolEnd
  | .wrap io args => ((Vault.wrapMain nss S io args v).1, some (Vault.wrapMain nss S io args v).2)
  | .rewrap io args => ((Vault.rewrapMain nss S io args v).1, some (Vault.rewrapMain nss S io args v).2)
  | .unwrap io args => ((Vault.unwrapMain nss S io args v).1, some (Vault.unwrapMain nss S io args v).2)
  | .insert io adds args =>
    ((Vault.insertMain nss S io adds args v).1, some (Vault.insertMain nss S io adds args v).2)
  | .login io adds passphrase => (v.authenticate nss S io adds passphrase, none)
  | .change io old new => (v.chauthtok nss S io old new, none)
  | .leave cleartext => ({ v with cleartext := some cleartext }, none)
  | .keyring K => ({ v with keyring := K }, none)

/-- The two keys of a mount passphrase are put into the keyring. -/
def registerKeys (adds : ℕ → AddCalls) (passphrase : CStr) (K : Keyring) : ℤ × Keyring :=
  let (rc, K) := addPassphraseKeyToKeyring nss (adds 0) passphrase saltFnek K
  if rc < 0 then (rc, K) else addPassphraseKeyToKeyring nss (adds 1) passphrase S K

namespace IdealVault

/-- A cleartext passphrase that the setup has left is wrapped, if there is no file yet; it is gone if that
goes well. -/
def wrapCleartext (passphrase : Option CStr) (i : IdealVault) : Bool × IdealVault :=
  match i.cleartext, i.stored, passphrase with
  | some src, .absent, some (c :: rest) =>
    if src = [] ∨ maxPassphraseBytes < (c :: rest).length then (false, i)
    else if wrappedText src = [] then (false, { i with stored := .stub })
    else (true, { i with stored := .holds (wrappedText src) (c :: rest), cleartext := none })
  | _, _, _ => (true, i)

/-- What comes of an insertion under a wrapping passphrase. -/
def insert (adds : ℕ → AddCalls) (wrapping : CStr) (i : IdealVault) : ℤ × IdealVault :=
  match i.stored.opened wrapping with
  | none => (-eio, i)
  | some passphrase =>
    ((registerKeys nss S adds passphrase i.keyring).1,
      { i with keyring := (registerKeys nss S adds passphrase i.keyring).2 })

/-- What is to come of each step. -/
def step (i : IdealVault) : VaultOp → IdealVault × Option ToolEnd
  | .wrap io args =>
    let (i, done) := (io.wrapAsked args).run i fun (passphrase, wrapping) =>
      ({ i with stored := i.stored.wrap passphrase wrapping },
        .exited (if passphrase = [] then 1 else 0) none)
    (i, some done)
  | .rewrap io args =>
    let (i, done) := (io.rewrapAsked args).run i fun (old, new) =>
      ({ i with stored := i.stored.change old new },
        .exited (if i.stored.opened old = none then 1 else 0) none)
    (i, some done)
  | .unwrap io args =>
    let (i, done) := (io.unwrapAsked args).run i fun wrapping =>
      (i, .exited (if i.stored.opened wrapping = none then 1 else 0) (i.stored.opened wrapping))
    (i, some done)
  | .insert io adds args =>
    let (i, done) := (io.insertAsked args).run i fun wrapping =>
      ((i.insert nss S adds wrapping).2,
        .exited (if (i.insert nss S adds wrapping).1 < 0 then 1 else 0) none)
    (i, some done)
  | .login _ adds passphrase =>
    match passphrase with
    | none => (i, none)
    | some passphrase =>
      let (wrapped, i) := i.wrapCleartext (some passphrase)
      (if wrapped then (i.insert nss S adds passphrase).2 else i, none)
  | .change _ old new =>
    let (wrapped, i) := i.wrapCleartext new
    match old, new with
    | some old, some (c :: rest) =>
      (if wrapped then { i with stored := i.stored.change old (c :: rest) } else i, none)
    | _, _ => (i, none)
  | .leave cleartext => ({ i with cleartext := some cleartext }, none)
  | .keyring K => ({ i with keyring := K }, none)

end IdealVault

/-! ## What the steps rest on -/

/-- The wrapping passphrases that a program is asked to use. -/
def Asked.wrappings {α : Type} (used : α → List CStr) : Asked α → List CStr
  | .go a => used a
  | _ => []

/-- The wrapping passphrases of a step. -/
def VaultOp.wrappings : VaultOp → List CStr
  | .wrap io args => (io.wrapAsked args).wrappings fun asked => [asked.2]
  | .rewrap io args => (io.rewrapAsked args).wrappings fun asked => [asked.1, asked.2]
  | .unwrap io args => (io.unwrapAsked args).wrappings fun asked => [asked]
  | .insert io _ args => (io.insertAsked args).wrappings fun asked => [asked]
  | .login _ _ passphrase => passphrase.toList
  | .change _ old new => old.toList ++ new.toList
  | _ => []

/-- The file can be replaced, and everything is written. -/
structure WriteIo.Works (io : WriteIo) : Prop where
  unlink : io.unlinkOk = true
  opens : io.openOk = true
  complete : ∀ passphrase : CStr, passphrase.length ≤ maxPassphraseBytes → io.Complete passphrase

/-- The arguments of a step are texts, and its files can be read and written. -/
def VaultOp.Works : VaultOp → Prop
  | .wrap io args => (∀ a ∈ args, 0 ∉ a) ∧ io.write.Works
  | .rewrap io _ => io.read = .complete ∧ io.write.Works
  | .unwrap io _ | .insert io _ _ => io.read = .complete
  | .login io _ _ | .change io _ _ => io.read = .complete ∧ io.write.Works ∧ io.wrapFile.Complete ∧
      io.wrapFile.openSrc = true ∧ io.wrapFile.unlinkSrc = true ∧ io.wrapFile.dest.Works
  | _ => True

/-- Different passphrases of a list have different signatures. -/
def ToldApart (wrappings : List CStr) : Prop :=
  ∀ W ∈ wrappings, ∀ W' ∈ wrappings, ∀ w w', generatePassphraseSig nss S W = .ok w →
    generatePassphraseSig nss S W' = .ok w' → w.sig = w'.sig → W = W'

/-- The file is good for what is said of it. -/
def WrappedFile.On : WrappedFile → Option (List UInt8) → Prop
  | .absent, file => file = none
  | .stub, file => ∃ sig, sig.length = sigSizeHex ∧ file = some sig
  | .holds P W, file => 0 ∉ P ∧ P.length ≤ maxPassphraseBytes ∧ P ≠ [] ∧ ∃ w out,
      generatePassphraseSig nss S W = .ok w ∧
      nss.encrypt (w.fekek.toList.take aesKeyBytes)
        (P ++ List.replicate (paddedBytes P - P.length) 0) = some out ∧
      out.length = paddedBytes P ∧ file = some (w.sig ++ out)

/-- The program's state is as the abstract one says, and its wrapping passphrase is one of the list. -/
structure VaultRel (wrappings : List CStr) (v : Vault) (i : IdealVault) : Prop where
  on : i.stored.On nss S v.file
  cleartext : v.cleartext = i.cleartext
  keyring : v.keyring = i.keyring
  among : ∀ W ∈ i.stored.wrappings, W ∈ wrappings

end

variable {nss : Nss} {S : Salt} {wrappings : List CStr} {v : Vault} {i : IdealVault} {s : WrappedFile}
  {file : Option (List UInt8)}

/-! ## Wrapping and unwrapping -/

/-- What comes out of a file for a wrapping passphrase that is told apart from its own. -/
theorem unwrap_on (ecb : AesEcb nss) (apart : ToldApart nss S wrappings) (on : s.On nss S file)
    (among : ∀ W ∈ s.wrappings, W ∈ wrappings) {W : CStr} (used : W ∈ wrappings) :
    (s.opened W = none ∧ ∃ rc, unwrapPassphrase nss .complete file W S = .error rc) ∨
      ∃ P out, s.opened W = some P ∧ unwrapPassphrase nss .complete file W S = .ok out ∧ cString out = P := by
  cases s with
  | absent =>
    obtain rfl : file = none := on
    left
    refine ⟨rfl, ?_⟩
    unfold unwrapPassphrase
    rcases generatePassphraseSig nss S W with rc | w
    · exact ⟨_, rfl⟩
    · exact ⟨-eio, rfl⟩
  | stub =>
    obtain ⟨sig, sixteen, rfl⟩ := on
    left
    refine ⟨rfl, ?_⟩
    -- there is nothing to be read behind the signature
    have readSig : transfer (some sigSizeHex) (sig.take sigSizeHex) = some sig := by
      rw [List.take_of_length_le sixteen.le]
      refine transfer_all sixteen.le (List.ne_nil_of_length_pos ?_)
      rw [sixteen]
      decide
    unfold unwrapPassphrase ReadIo.complete
    rcases generatePassphraseSig nss S W with rc | w
    · exact ⟨_, rfl⟩
    · simp only [if_true, readSig, List.drop_length, List.take_nil, transfer_nil]
      exact ⟨_, rfl⟩
  | holds P W₀ =>
    obtain ⟨text, fits, nonempty, w, out, sig, enc, len, rfl⟩ := on
    by_cases same : W = W₀
    · subst same
      right
      refine ⟨P, _, if_pos rfl, unwrap_record ecb sig fits nonempty enc len, ?_⟩
      rw [cString_append_zeros, cString_of_notMem text]
    · left
      refine ⟨if_neg same, ?_⟩
      have other : (generatePassphraseSig nss S W).map PassphraseSig.sig ≠ .ok w.sig := by
        rcases gen : generatePassphraseSig nss S W with rc | w'
        · simp [Except.map]
        · intro equal
          exact same (apart W used W₀ (among W₀ List.mem_cons_self) w' w gen sig (Except.ok.inj equal))
      obtain ⟨rc, -, refused⟩ := unwrap_other (generatePassphraseSig_length nss sig) other
      exact ⟨rc, refused⟩

/-- A wrap leaves what is said of it. -/
theorem wrap_on (ecb : AesEcb nss) (uninit : Vector UInt8 16) {io : WriteIo} (works : io.Works)
    (on : s.On nss S file) {P : CStr} (text : 0 ∉ P) (W : CStr) :
    (s.wrap P W).On nss S (wrapPassphrase nss uninit io file W S P).2 ∧
      ((wrapPassphrase nss uninit io file W S P).1 = 0 ↔
        P ≠ [] ∧ P.length ≤ maxPassphraseBytes ∧ W.length ≤ maxPassphraseBytes) := by
  have eio_ne : (-eio : ℤ) ≠ 0 := by decide
  have gone : unlinked io file = none := if_pos works.unlink
  by_cases fitsP : P.length ≤ maxPassphraseBytes
  · by_cases fitsW : W.length ≤ maxPassphraseBytes
    · obtain ⟨w, gen⟩ := generatePassphraseSig_ok nss ecb.hash S fitsW
      obtain ⟨out, enc, len, record⟩ := wrapRecord_ok uninit ecb fitsP gen
      have within : ¬ (maxPassphraseBytes < P.length ∨ maxPassphraseBytes < W.length) := by omega
      unfold WrappedFile.wrap
      rw [wrapPassphrase_of_record uninit record, if_neg within]
      by_cases nonempty : P = []
      · subst nonempty
        have none_ : out = [] := List.length_eq_zero_iff.mp len
        have sixteen := generatePassphraseSig_length nss gen
        obtain ⟨⟨k, hk, enough⟩, -⟩ := works.complete [] (by decide)
        have written : transfer io.writeSig w.sig = some w.sig := by
          rw [hk]
          refine transfer_all (by omega) (List.ne_nil_of_length_pos ?_)
          rw [sixteen]
          decide
        have replaced : replaceFile io file ⟨w.sig, out⟩ = (-eio, some w.sig) := by
          simp only [replaceFile, gone, works.opens, Bool.true_eq_false, if_false, written, none_,
            transfer_nil]
        rw [replaced, if_pos rfl]
        exact ⟨⟨w.sig, sixteen, rfl⟩, iff_of_false eio_ne fun all => all.1 rfl⟩
      · rw [replaceFile_complete (wrapRecord_sizes uninit record).2 (works.complete P fitsP) nonempty gone
          works.opens, if_neg nonempty]
        exact ⟨⟨text, fitsP, nonempty, w, out, gen, enc, len, rfl⟩, iff_of_true rfl ⟨nonempty, fitsP, fitsW⟩⟩
    · have unchanged : ∃ rc, rc ≠ 0 ∧ wrapPassphrase nss uninit io file W S P = (rc, file) := by
        rcases record : wrapRecord nss uninit W S P with rc | r
        · exact ⟨rc, wrapRecord_error uninit record, by rw [wrapPassphrase, record]⟩
        · rw [wrapRecord, if_neg (not_lt.mpr fitsP), generatePassphraseSig, if_pos (not_le.mp fitsW)] at record
          cases record
      obtain ⟨rc, failed, result⟩ := unchanged
      rw [result]
      unfold WrappedFile.wrap
      rw [if_pos (.inr (not_le.mp fitsW))]
      exact ⟨on, iff_of_false failed fun all => fitsW all.2.2⟩
  · have result : wrapPassphrase nss uninit io file W S P = (-eio, file) := by
      rw [wrapPassphrase, wrapRecord, if_pos (not_le.mp fitsP)]
    rw [result]
    unfold WrappedFile.wrap
    rw [if_pos (.inl (not_le.mp fitsP))]
    exact ⟨on, iff_of_false eio_ne fun all => fitsP all.2.1⟩

theorem WrappedFile.wrappings_wrap (s : WrappedFile) (P W : CStr) :
    ∀ W' ∈ (s.wrap P W).wrappings, W' = W ∨ W' ∈ s.wrappings := by
  intro W' isOne
  unfold WrappedFile.wrap at isOne
  split_ifs at isOne
  · exact .inr isOne
  · exact absurd isOne List.not_mem_nil
  · exact .inl (List.mem_singleton.mp isOne)

/-- What is taken out of a file is a passphrase that can be wrapped. -/
theorem WrappedFile.On.opened {W P : CStr} (on : s.On nss S file) (opens : s.opened W = some P) :
    0 ∉ P ∧ P ≠ [] ∧ P.length ≤ maxPassphraseBytes := by
  cases s with
  | absent => cases opens
  | stub => cases opens
  | holds P₀ W₀ =>
    have opens : (if W = W₀ then some P₀ else none) = some P := opens
    split_ifs at opens
    obtain rfl := Option.some.inj opens
    exact ⟨on.1, on.2.2.1, on.2.1⟩

/-- A change of the wrapping passphrase: a file that is not opened stays as it is. -/
theorem change_on (ecb : AesEcb nss) (uninit : Vector UInt8 16) (apart : ToldApart nss S wrappings)
    {io : WriteIo} (works : io.Works) (on : s.On nss S file) (among : ∀ W ∈ s.wrappings, W ∈ wrappings)
    {old : CStr} (used : old ∈ wrappings) (new : CStr) :
    (s.opened old = none ∧ s.change old new = s ∧
        ∃ rc, unwrapPassphrase nss .complete file old S = .error rc) ∨
      ∃ P out, s.opened old = some P ∧ unwrapPassphrase nss .complete file old S = .ok out ∧
        cString out = P ∧ s.change old new = s.wrap P new ∧
        (s.wrap P new).On nss S (wrapPassphrase nss uninit io file new S P).2 ∧
        ((wrapPassphrase nss uninit io file new S P).1 = 0 ↔ new.length ≤ maxPassphraseBytes) := by
  rcases unwrap_on ecb apart on among used with ⟨closed, refused⟩ | ⟨P, out, opens, read, isText⟩
  · left
    refine ⟨closed, ?_, refused⟩
    unfold WrappedFile.change
    rw [closed]
  · right
    obtain ⟨text, nonempty, fits⟩ := on.opened opens
    obtain ⟨left, done⟩ := wrap_on ecb uninit works on text new
    have changes : s.change old new = s.wrap P new := by
      unfold WrappedFile.change
      rw [opens]
    have done' := done.trans ⟨fun all => all.2.2, fun fitsNew => ⟨nonempty, fits, fitsNew⟩⟩
    exact ⟨P, out, opens, read, isText, changes, left, done'⟩

/-! ## The steps -/

/-- What becomes of a file with a cleartext when there is no wrapped-passphrase file yet. -/
theorem wrapPassphraseFile_absent (ecb : AesEcb nss) (uninit : Vector UInt8 16) {io : WrapFileIo}
    (complete : io.Complete) (opens : io.openSrc = true) (unlinks : io.unlinkSrc = true)
    (works : io.dest.Works) (W : CStr) (src : List UInt8) :
    let result := wrapPassphraseFile nss uninit io none W S src
    if src = [] ∨ maxPassphraseBytes < W.length then
      result.rc ≠ 0 ∧ result.src = some src ∧ result.dest = none
    else if wrappedText src = [] then
      result.rc ≠ 0 ∧ result.src = some src ∧ WrappedFile.stub.On nss S result.dest
    else
      result.rc = 0 ∧ result.src = none ∧
        (WrappedFile.holds (wrappedText src) W).On nss S result.dest := by
  intro result
  have eio_ne : (-eio : ℤ) ≠ 0 := by decide
  have small := length_wrappedText src
  have absent : WrappedFile.absent.On nss S none := rfl
  obtain ⟨left, done⟩ := wrap_on ecb uninit works absent (notMem_cString (src.take maxPassphraseBytes)) W
  rw [← wrappedText] at left done
  by_cases empty : src = []
  · have unread : result = { rc := -eio, src := some src, dest := none } := by
      show wrapPassphraseFile nss uninit io none W S src = _
      simp [wrapPassphraseFile, opens, empty, transfer_nil]
    rw [if_pos (.inl empty), unread]
    exact ⟨eio_ne, rfl, rfl⟩
  · have read : result = _ := wrapPassphraseFile_read complete opens empty
    dsimp only at read
    by_cases long : maxPassphraseBytes < W.length
    · have failed : (wrapPassphrase nss uninit io.dest none W S (wrappedText src)).1 ≠ 0 :=
        fun zero => absurd (done.mp zero).2.2 (not_le.mpr long)
      unfold WrappedFile.wrap at left
      rw [if_pos (.inr long)] at left
      rw [if_pos (.inr long), read, if_neg failed]
      exact ⟨eio_ne, rfl, left⟩
    · rw [if_neg (by rintro (same | over_) <;> contradiction)]
      unfold WrappedFile.wrap at left
      rw [if_neg (by omega)] at left
      by_cases noText : wrappedText src = []
      · have failed : (wrapPassphrase nss uninit io.dest none W S (wrappedText src)).1 ≠ 0 :=
          fun zero => (done.mp zero).1 noText
        rw [if_pos noText] at left
        rw [if_pos noText, read, if_neg failed]
        exact ⟨eio_ne, rfl, left⟩
      · have wrapped := done.mpr ⟨noText, small, not_lt.mp long⟩
        rw [if_neg noText] at left
        rw [if_neg noText, read, if_pos wrapped]
        exact ⟨rfl, if_pos unlinks, left⟩

/-- The cleartext passphrase is wrapped as is said. -/
theorem wrapCleartext_on (ecb : AesEcb nss) {io : PamIo} (complete : io.wrapFile.Complete)
    (opens : io.wrapFile.openSrc = true) (unlinks : io.wrapFile.unlinkSrc = true)
    (works : io.wrapFile.dest.Works) (rel : VaultRel nss S wrappings v i) {passphrase : Option CStr}
    (used : ∀ W ∈ passphrase, W ∈ wrappings) :
    VaultRel nss S wrappings (v.wrapPassphraseIfNecessary nss S io passphrase).2
        (i.wrapCleartext passphrase).2 ∧
      ((v.wrapPassphraseIfNecessary nss S io passphrase).1 = 0 ↔ (i.wrapCleartext passphrase).1 = true) := by
  obtain ⟨on, cleartext, keyring, among⟩ := rel
  obtain ⟨vFile, vCleartext, vKeyring⟩ := v
  obtain ⟨stored, iCleartext, iKeyring⟩ := i
  dsimp only at on cleartext keyring among
  subst cleartext keyring
  -- nothing happens unless there is a cleartext, no file, and a passphrase
  have idle : VaultRel nss S wrappings ⟨vFile, vCleartext, vKeyring⟩ ⟨stored, vCleartext, vKeyring⟩ :=
    ⟨on, rfl, rfl, among⟩
  rcases vCleartext with _ | src
  · exact ⟨idle, iff_of_true rfl rfl⟩
  cases stored with
  | stub =>
    obtain ⟨sig, -, rfl⟩ := on
    exact ⟨idle, iff_of_true rfl rfl⟩
  | holds P W =>
    obtain ⟨-, -, -, w, out, -, -, -, rfl⟩ := on
    exact ⟨idle, iff_of_true rfl rfl⟩
  | absent =>
    obtain rfl : vFile = none := on
    rcases passphrase with _ | _ | ⟨c, rest⟩
    · exact ⟨idle, iff_of_true rfl rfl⟩
    · exact ⟨idle, iff_of_true rfl rfl⟩
    · have result := wrapPassphraseFile_absent (S := S) ecb io.uninit complete opens unlinks works (c :: rest) src
      dsimp only at result
      unfold Vault.wrapPassphraseIfNecessary IdealVault.wrapCleartext
      dsimp only
      by_cases refused : src = [] ∨ maxPassphraseBytes < (c :: rest).length
      · rw [if_pos refused] at result ⊢
        obtain ⟨failed, kept, none_⟩ := result
        rw [kept, none_]
        exact ⟨idle, iff_of_false failed Bool.false_ne_true⟩
      · rw [if_neg refused] at result ⊢
        by_cases noText : wrappedText src = []
        · rw [if_pos noText] at result ⊢
          obtain ⟨failed, kept, stub⟩ := result
          rw [kept]
          exact ⟨⟨stub, rfl, rfl, fun W isOne => absurd isOne List.not_mem_nil⟩,
            iff_of_false failed Bool.false_ne_true⟩
        · rw [if_neg noText] at result ⊢
          obtain ⟨done, gone, holds⟩ := result
          refine ⟨⟨holds, gone, rfl, fun W isOne => ?_⟩, iff_of_true done rfl⟩
          rw [List.mem_singleton.mp isOne]
          exact used _ rfl

/-- An insertion of the two keys is as is said. -/
theorem insert_on (ecb : AesEcb nss) (apart : ToldApart nss S wrappings) (rel : VaultRel nss S wrappings v i)
    (adds : ℕ → AddCalls) {W : CStr} (used : W ∈ wrappings) :
    VaultRel nss S wrappings
        { v with keyring := (insertWrappedPassphraseIntoKeyring nss adds .complete v.file W S v.keyring).2 }
        (i.insert nss S adds W).2 ∧
      (insertWrappedPassphraseIntoKeyring nss adds .complete v.file W S v.keyring).1 =
        (i.insert nss S adds W).1 := by
  unfold insertWrappedPassphraseIntoKeyring IdealVault.insert
  rcases unwrap_on ecb apart rel.on rel.among used with ⟨closed, rc, refused⟩ | ⟨P, out, opens, read, isText⟩
  · rw [closed, refused]
    exact ⟨⟨rel.on, rel.cleartext, rel.keyring, rel.among⟩, rfl⟩
  · rw [opens, read]
    dsimp only
    have text : out.takeWhile (· ≠ 0) = P := by
      rw [← isText, cString]
      congr 1
      funext c
      by_cases zero : c = 0
      · simp [zero]
      · simp [zero]
    rw [text, rel.keyring]
    exact ⟨⟨rel.on, rel.cleartext, rfl, rel.among⟩, rfl⟩

/-- The file after a change of its wrapping passphrase. -/
theorem VaultRel.rewrapped (rel : VaultRel nss S wrappings v i) {P new : CStr} (used : new ∈ wrappings)
    (left : (i.stored.wrap P new).On nss S file) :
    VaultRel nss S wrappings { v with file := file } { i with stored := i.stored.wrap P new } where
  on := left
  cleartext := rel.cleartext
  keyring := rel.keyring
  among W isOne := by
    rcases i.stored.wrappings_wrap P new W isOne with rfl | old
    · exact used
    · exact rel.among W old

/-- **Every step does what is said of it.** -/
theorem vault_step (ecb : AesEcb nss) (apart : ToldApart nss S wrappings) :
    Simulates (VaultRel nss S wrappings) (fun op => op.Works ∧ ∀ W ∈ op.wrappings, W ∈ wrappings)
      (Vault.step nss S) (IdealVault.step nss S) := by
  rintro v i op rel ⟨works, used⟩
  obtain ⟨on, cleartext, keyring, among⟩ := id rel
  cases op with
  | wrap io args =>
    obtain ⟨texts, works⟩ := works
    unfold Vault.step IdealVault.step Vault.wrapMain
    dsimp only
    rcases asked : io.wrapAsked args with _ | rc | ⟨P, W⟩
    · exact ⟨rel, rfl⟩
    · exact ⟨rel, rfl⟩
    · obtain ⟨text, fits⟩ := io.wrapAsked_go texts asked
      obtain ⟨left, done⟩ := wrap_on ecb io.uninit works on text W
      have isUsed : W ∈ wrappings := used W (by simp [VaultOp.wrappings, asked, Asked.wrappings])
      refine ⟨⟨left, cleartext, keyring, fun W' isOne => ?_⟩, ?_⟩
      · rcases i.stored.wrappings_wrap P W W' isOne with rfl | old
        · exact isUsed
        · exact among W' old
      · show some (ToolEnd.exited _ _) = some (ToolEnd.exited _ _)
        by_cases empty : P = []
        · have failed : (wrapPassphrase nss io.uninit io.write v.file W S P).1 ≠ 0 :=
            fun zero => (done.mp zero).1 empty
          rw [if_pos failed, if_pos empty]
        · rw [if_neg (not_not.mpr (done.mpr ⟨empty, fits⟩)), if_neg empty]
  | rewrap io args =>
    obtain ⟨readable, works⟩ := works
    unfold Vault.step IdealVault.step Vault.rewrapMain
    dsimp only
    rcases asked : io.rewrapAsked args with _ | rc | ⟨old, new⟩
    · exact ⟨rel, rfl⟩
    · exact ⟨rel, rfl⟩
    · have isUsed : old ∈ wrappings ∧ new ∈ wrappings := by
        constructor
        · exact used old (by simp [VaultOp.wrappings, asked, Asked.wrappings])
        · exact used new (by simp [VaultOp.wrappings, asked, Asked.wrappings])
      dsimp only [Asked.run]
      rw [readable]
      rcases change_on ecb io.uninit apart works on among isUsed.1 new with ⟨closed, same, rc, refused⟩ |
          ⟨P, out, opens, read, isText, changes, left, done⟩
      · rw [refused, same, closed]
        exact ⟨⟨on, cleartext, keyring, among⟩, rfl⟩
      · have zero := done.mpr (io.rewrapAsked_go asked)
        rw [read, changes, opens]
        dsimp only
        rw [isText, zero]
        exact ⟨rel.rewrapped isUsed.2 left, rfl⟩
  | unwrap io args =>
    unfold Vault.step IdealVault.step Vault.unwrapMain
    dsimp only
    rcases asked : io.unwrapAsked args with _ | rc | W
    · exact ⟨rel, rfl⟩
    · exact ⟨rel, rfl⟩
    · have isUsed : W ∈ wrappings := used W (by simp [VaultOp.wrappings, asked, Asked.wrappings])
      dsimp only [Asked.run]
      rw [show io.read = .complete from works]
      rcases unwrap_on ecb apart on among isUsed with ⟨closed, rc, refused⟩ | ⟨P, out, opens, read, isText⟩
      · rw [refused, closed]
        exact ⟨rel, rfl⟩
      · rw [read, opens]
        dsimp only
        rw [isText]
        exact ⟨rel, rfl⟩
  | insert io adds args =>
    unfold Vault.step IdealVault.step Vault.insertMain
    dsimp only
    rcases asked : io.insertAsked args with _ | rc | W
    · exact ⟨rel, rfl⟩
    · exact ⟨rel, rfl⟩
    · have isUsed : W ∈ wrappings := used W (by simp [VaultOp.wrappings, asked, Asked.wrappings])
      dsimp only [Asked.run]
      rw [show io.read = .complete from works]
      obtain ⟨inserted, code⟩ := insert_on ecb apart rel adds isUsed
      rw [code]
      exact ⟨inserted, rfl⟩
  | login io adds passphrase =>
    obtain ⟨readable, -, complete, opens, unlinks, works⟩ := works
    rcases passphrase with _ | W
    · exact ⟨rel, rfl⟩
    · have isUsed : W ∈ wrappings := used W (by simp [VaultOp.wrappings])
      have given : ∀ W' ∈ some W, W' ∈ wrappings := fun W' isOne => Option.mem_some_iff.mp isOne ▸ isUsed
      obtain ⟨wrapped, agree⟩ := wrapCleartext_on ecb complete opens unlinks works rel given
      unfold Vault.step IdealVault.step Vault.authenticate
      dsimp only
      by_cases done : (v.wrapPassphraseIfNecessary nss S io (some W)).1 = 0
      · rw [if_pos done, if_pos (agree.mp done), readable]
        exact ⟨(insert_on ecb apart wrapped adds isUsed).1, rfl⟩
      · rw [if_neg done, if_neg (mt agree.mpr done)]
        exact ⟨wrapped, rfl⟩
  | change io old new =>
    obtain ⟨readable, written, complete, opens, unlinks, works⟩ := works
    have isUsed : (∀ W ∈ old, W ∈ wrappings) ∧ ∀ W ∈ new, W ∈ wrappings := by
      constructor
      · exact fun W isOld => used W (List.mem_append_left _ (Option.mem_toList.mpr isOld))
      · exact fun W isNew => used W (List.mem_append_right _ (Option.mem_toList.mpr isNew))
    obtain ⟨wrapped, agree⟩ := wrapCleartext_on ecb complete opens unlinks works rel isUsed.2
    unfold Vault.step IdealVault.step Vault.chauthtok
    dsimp only
    by_cases done : (v.wrapPassphraseIfNecessary nss S io new).1 = 0
    · rw [if_pos done]
      rcases old with _ | old
      · exact ⟨wrapped, rfl⟩
      rcases new with _ | _ | ⟨c, rest⟩
      · exact ⟨wrapped, rfl⟩
      · exact ⟨wrapped, rfl⟩
      dsimp only
      rw [if_pos (agree.mp done), readable]
      rcases change_on ecb io.uninit apart written wrapped.on wrapped.among (isUsed.1 old rfl) (c :: rest) with
        ⟨closed, same, rc, refused⟩ | ⟨P, out, opens, read, isText, changes, left, -⟩
      · rw [refused, same]
        exact ⟨wrapped, rfl⟩
      · rw [read, changes]
        dsimp only
        rw [isText]
        exact ⟨wrapped.rewrapped (isUsed.2 _ rfl) left, rfl⟩
    · rw [if_neg done]
      rcases old with _ | old
      · exact ⟨wrapped, rfl⟩
      rcases new with _ | _ | ⟨c, rest⟩
      · exact ⟨wrapped, rfl⟩
      · exact ⟨wrapped, rfl⟩
      dsimp only
      rw [if_neg (mt agree.mpr done)]
      exact ⟨wrapped, rfl⟩
  | leave text => exact ⟨⟨on, rfl, keyring, among⟩, rfl⟩
  | keyring K => exact ⟨⟨on, cleartext, rfl, among⟩, rfl⟩

/-! ## The passphrase over a run -/

/-- A step wraps another passphrase. -/
def VaultOp.Wraps : VaultOp → Prop
  | .wrap io args => ∃ asked, io.wrapAsked args = .go asked
  | _ => False

/-- The wrapping passphrase after a step: only one that opens the file can change it, to one that is not
too long, and, for a password, not empty. -/
def VaultOp.next (current : CStr) : VaultOp → CStr
  | .rewrap io args =>
    match io.rewrapAsked args with
    | .go (old, new) => if old = current then new else current
    | _ => current
  | .change _ (some old) (some (c :: rest)) =>
    if old = current ∧ (c :: rest).length ≤ maxPassphraseBytes then c :: rest else current
  | _ => current

/-- The change of a file that holds a passphrase. -/
theorem WrappedFile.change_holds {P W old new : CStr} (fitsP : P.length ≤ maxPassphraseBytes)
    (nonempty : P ≠ []) : (WrappedFile.holds P W).change old new =
      .holds P (if old = W ∧ new.length ≤ maxPassphraseBytes then new else W) := by
  unfold WrappedFile.change WrappedFile.opened
  by_cases same : old = W
  · dsimp only
    rw [if_pos same]
    dsimp only
    unfold WrappedFile.wrap
    by_cases fits : new.length ≤ maxPassphraseBytes
    · rw [if_neg (by omega), if_neg nonempty, if_pos ⟨same, fits⟩]
    · rw [if_pos (.inr (not_le.mp fits)), if_neg fun both => fits both.2]
  · dsimp only
    rw [if_neg same, if_neg fun both => same both.1]

/-- A step that wraps no other passphrase keeps the one in the file. -/
theorem step_holds (nss : Nss) (S : Salt) {P W : CStr} (fitsP : P.length ≤ maxPassphraseBytes) (nonempty : P ≠ [])
    (holds : i.stored = .holds P W) {op : VaultOp} (keeps : ¬ op.Wraps) :
    (i.step nss S op).1.stored = .holds P (op.next W) := by
  have inserted : ∀ adds W', (i.insert nss S adds W').2.stored = i.stored := by
    intro adds W'
    unfold IdealVault.insert
    rcases i.stored.opened W' with _ | P'
    · rfl
    · rfl
  have idle : ∀ passphrase, i.wrapCleartext passphrase = (true, i) := by
    intro passphrase
    unfold IdealVault.wrapCleartext
    rw [holds]
    rcases i.cleartext with _ | src
    · rfl
    · rfl
  cases op with
  | wrap io args =>
    rcases asked : io.wrapAsked args with _ | rc | asked'
    · unfold IdealVault.step
      dsimp only
      rw [asked]
      exact holds
    · unfold IdealVault.step
      dsimp only
      rw [asked]
      exact holds
    · exact absurd ⟨asked', asked⟩ keeps
  | rewrap io args =>
    unfold IdealVault.step VaultOp.next
    dsimp only
    rcases asked : io.rewrapAsked args with _ | rc | ⟨old, new⟩
    · exact holds
    · exact holds
    · have fits := io.rewrapAsked_go asked
      show i.stored.change old new = .holds P (if old = W then new else W)
      rw [holds, WrappedFile.change_holds fitsP nonempty]
      simp only [fits, and_true]
  | unwrap io args =>
    unfold IdealVault.step
    dsimp only
    rcases io.unwrapAsked args with _ | rc | W'
    · exact holds
    · exact holds
    · exact holds
  | insert io adds args =>
    unfold IdealVault.step
    dsimp only
    rcases io.insertAsked args with _ | rc | W'
    · exact holds
    · exact holds
    · exact (inserted adds W').trans holds
  | login io adds passphrase =>
    rcases passphrase with _ | W'
    · exact holds
    · unfold IdealVault.step
      dsimp only
      rw [idle]
      exact (inserted adds W').trans holds
  | change io old new =>
    unfold IdealVault.step
    dsimp only
    rw [idle]
    rcases old with _ | old
    · exact holds
    · rcases new with _ | _ | ⟨c, rest⟩
      · exact holds
      · exact holds
      · show i.stored.change old (c :: rest) =
          .holds P (if old = W ∧ (c :: rest).length ≤ maxPassphraseBytes then c :: rest else W)
        rw [holds, WrappedFile.change_holds fitsP nonempty]
  | leave cleartext => exact holds
  | keyring K => exact holds

/-- What is said of a file that holds a passphrase after a run. -/
theorem run_holds {P W : CStr} (fitsP : P.length ≤ maxPassphraseBytes) (nonempty : P ≠ [])
    (holds : i.stored = .holds P W) {ops : List VaultOp} (keeps : ∀ op ∈ ops, ¬ op.Wraps) :
    (runThrough (IdealVault.step nss S) i ops).1.stored = .holds P (ops.foldl VaultOp.next W) := by
  induction ops generalizing i W with
  | nil => exact holds
  | cons op ops ih =>
    have next := step_holds nss S fitsP nonempty holds (keeps op List.mem_cons_self)
    exact ih next fun op' among => keeps op' (List.mem_cons_of_mem op among)

/-! ### A run -/

/-- An NSS whose digests repeat the last byte of the input. -/
def lastByteNss : Nss := { plainNss with sha512 := fun src => Vector.replicate 64 (src.getLastD 0) }

theorem aesEcb_lastByteNss : AesEcb lastByteNss := { aesEcb_plainNss with hash := fun _ => rfl }

/-- Its keys and signatures spell the last byte of the passphrase. -/
theorem generatePassphraseSig_lastByteNss (passphrase : CStr) (salt : Salt) {b : UInt8}
    (fits : passphrase.length ≤ maxPassphraseBytes) (last : (salt.toList ++ passphrase).getLastD 0 = b) :
    generatePassphraseSig lastByteNss salt passphrase =
      .ok ⟨toHex (List.replicate 8 b), Vector.replicate 64 b⟩ := by
  have again : lastByteNss.sha512 (Vector.replicate 64 b).toList = Vector.replicate 64 b := rfl
  have start : lastByteNss.sha512 (salt.toList ++ passphrase) = Vector.replicate 64 b :=
    congrArg (Vector.replicate 64) last
  rw [generatePassphraseSig_eq lastByteNss (fun _ => rfl) salt fits, start, Function.iterate_fixed, again]
  · rfl
  · exact again

/-- Two wrapping passphrases with different last characters. -/
theorem toldApart_lastByteNss : ToldApart lastByteNss (.replicate 8 0) [lit "old", lit "new"] := by
  have old := generatePassphraseSig_lastByteNss (lit "old") (.replicate 8 0) (b := 100)
    (by decide) (by decide)
  have new := generatePassphraseSig_lastByteNss (lit "new") (.replicate 8 0) (b := 119)
    (by decide) (by decide)
  have differ : toHex (List.replicate 8 100) ≠ toHex (List.replicate 8 119) := by decide
  intro W among W' among' w w' gen gen' same
  rcases List.mem_pair.mp among with rfl | rfl
  · rcases List.mem_pair.mp among' with rfl | rfl
    · rfl
    · obtain rfl := Except.ok.inj (old.symm.trans gen)
      obtain rfl := Except.ok.inj (new.symm.trans gen')
      exact absurd same differ
  · rcases List.mem_pair.mp among' with rfl | rfl
    · obtain rfl := Except.ok.inj (new.symm.trans gen)
      obtain rfl := Except.ok.inj (old.symm.trans gen')
      exact absurd same.symm differ
    · rfl

/-- A file can be replaced completely. -/
def writesAll : WriteIo := ⟨true, true, some 16, some 64⟩

theorem writesAll_works : writesAll.Works where
  unlink := rfl
  opens := rfl
  complete _ fits := ⟨⟨16, rfl, le_rfl⟩, 64, rfl, paddedBytes_le fits⟩

/-- Nothing is typed, and everything works. -/
def plainIo : ToolIo := ⟨[], fun _ => true, false, .complete, writesAll, .replicate 16 170⟩

/-- A passphrase is wrapped, its wrapping passphrase is changed, and it is taken out again. -/
def wrapChangeUnwrap : List VaultOp :=
  [.wrap plainIo ["file", "secret", "old"], .rewrap plainIo ["file", "old", "new"],
    .unwrap plainIo ["file", "new"]]

theorem wrapChangeUnwrap_works : ∀ op ∈ wrapChangeUnwrap,
    op.Works ∧ ∀ W ∈ op.wrappings, W ∈ [lit "old", lit "new"] := by
  intro op among
  rcases List.mem_cons.mp among with rfl | among
  · exact ⟨⟨by decide, writesAll_works⟩, by decide⟩
  rcases List.mem_pair.mp among with rfl | rfl
  · exact ⟨⟨rfl, writesAll_works⟩, by decide⟩
  · exact ⟨rfl, by decide⟩

/-- The state before there is a file. -/
theorem vaultRel_empty : VaultRel lastByteNss (.replicate 8 0) [lit "old", lit "new"]
    ⟨none, none, fun _ => none⟩ ⟨.absent, none, fun _ => none⟩ :=
  ⟨rfl, rfl, rfl, fun _ isOne => absurd isOne List.not_mem_nil⟩

/-- The state after the wrap. -/
def secretVault : Vault :=
  (runThrough (Vault.step lastByteNss (.replicate 8 0)) ⟨none, none, fun _ => none⟩
    [.wrap plainIo ["file", "secret", "old"]]).1

theorem vaultRel_secretVault : VaultRel lastByteNss (.replicate 8 0) [lit "old", lit "new"] secretVault
    ⟨.holds "secret" "old", none, fun _ => none⟩ :=
  ((vault_step aesEcb_lastByteNss toldApart_lastByteNss).run vaultRel_empty
    fun op among => wrapChangeUnwrap_works op (List.mem_singleton.mp among ▸ List.mem_cons_self)).1

/-- The wrapping passphrase is changed, and then again by one who knows only the old one. -/
def changesToNew : List VaultOp :=
  [.rewrap plainIo ["file", "old", "new"], .rewrap plainIo ["file", "old", "old"]]

theorem changesToNew_works : ∀ op ∈ changesToNew,
    op.Works ∧ ∀ W ∈ op.wrappings, W ∈ [lit "old", lit "new"] := by
  intro op among
  rcases List.mem_pair.mp among with rfl | rfl
  · exact ⟨⟨rfl, writesAll_works⟩, by decide⟩
  · exact ⟨⟨rfl, writesAll_works⟩, by decide⟩

theorem changesToNew_keeps : ∀ op ∈ changesToNew, ¬ op.Wraps := by
  intro op among
  rcases List.mem_pair.mp among with rfl | rfl
  · exact id
  · exact id

/-! ## Runs -/

/-- **Tools, logins and password changes in any order.**  When the files can be read and written and the
wrapping passphrases that are used have different signatures, the programs end in every run as is said of the
abstract file, print what it gives, and leave the keyring as is said; and the file is good for exactly what
is said of it. -/
theorem vault_refines (ecb : AesEcb nss) (apart : ToldApart nss S wrappings)
    (rel : VaultRel nss S wrappings v i) {ops : List VaultOp}
    (works : ∀ op ∈ ops, op.Works ∧ ∀ W ∈ op.wrappings, W ∈ wrappings) :
    VaultRel nss S wrappings (runThrough (Vault.step nss S) v ops).1 (runThrough (IdealVault.step nss S) i ops).1 ∧
      (runThrough (Vault.step nss S) v ops).2 = (runThrough (IdealVault.step nss S) i ops).2 :=
  (vault_step ecb apart).run rel works

theorem vault_refines_secret :
    VaultRel lastByteNss (.replicate 8 0) [lit "old", lit "new"]
        (runThrough (Vault.step lastByteNss (.replicate 8 0)) ⟨none, none, fun _ => none⟩ wrapChangeUnwrap).1
        ⟨.holds "secret" "new", none, fun _ => none⟩ ∧
      (runThrough (Vault.step lastByteNss (.replicate 8 0)) ⟨none, none, fun _ => none⟩ wrapChangeUnwrap).2 =
        [some (.exited 0 none), some (.exited 0 none), some (.exited 0 (some "secret"))] :=
  vault_refines aesEcb_lastByteNss toldApart_lastByteNss vaultRel_empty wrapChangeUnwrap_works

/-- **The mount passphrase survives.**  Over any run of tools, logins and password changes in which no other
passphrase is wrapped, the mount passphrase in the file stays what it was.  It comes out under the wrapping
passphrase of the last change that knew the one before it, and under no other that is told apart from it. -/
theorem passphrase_survives (ecb : AesEcb nss) (apart : ToldApart nss S wrappings)
    (rel : VaultRel nss S wrappings v i) {P W : CStr} (holds : i.stored = .holds P W) {ops : List VaultOp}
    (works : ∀ op ∈ ops, op.Works ∧ ∀ W ∈ op.wrappings, W ∈ wrappings)
    (keeps : ∀ op ∈ ops, ¬ op.Wraps) :
    let after := (runThrough (Vault.step nss S) v ops).1.file
    let current := ops.foldl VaultOp.next W
    (∃ out, unwrapPassphrase nss .complete after current S = .ok out ∧ cString out = P) ∧
      ∀ W' ∈ wrappings, W' ≠ current → ∃ rc, unwrapPassphrase nss .complete after W' S = .error rc := by
  intro after current
  have on := rel.on
  rw [holds] at on
  obtain ⟨text, fits, nonempty, -⟩ := on
  obtain ⟨⟨on', -, -, among⟩, -⟩ := (vault_step ecb apart).run rel works
  rw [run_holds fits nonempty holds keeps] at on' among
  have isCurrent : current ∈ wrappings := among current List.mem_cons_self
  constructor
  · rcases unwrap_on ecb apart on' among isCurrent with ⟨closed, -⟩ | ⟨P', out, opens, read, isText⟩
    · exact absurd closed (by simp [WrappedFile.opened, current])
    · have same : some P = some P' := (if_pos rfl).symm.trans opens
      exact ⟨out, read, isText.trans (Option.some.inj same).symm⟩
  · intro W' used other
    rcases unwrap_on ecb apart on' among used with ⟨-, refused⟩ | ⟨P', out, opens, -⟩
    · exact refused
    · exact absurd ((if_neg other).symm.trans opens) (by simp)

theorem passphrase_survives_secret :
    (∃ out, unwrapPassphrase lastByteNss .complete
        (runThrough (Vault.step lastByteNss (.replicate 8 0)) secretVault changesToNew).1.file
        (lit "new") (.replicate 8 0) = .ok out ∧ cString out = lit "secret") ∧
      ∀ W' ∈ [lit "old", lit "new"], W' ≠ lit "new" → ∃ rc, unwrapPassphrase lastByteNss .complete
        (runThrough (Vault.step lastByteNss (.replicate 8 0)) secretVault changesToNew).1.file
        W' (.replicate 8 0) = .error rc :=
  passphrase_survives aesEcb_lastByteNss toldApart_lastByteNss vaultRel_secretVault
    (P := lit "secret") (W := lit "old") rfl changesToNew_works changesToNew_keeps

end Ecryptfs
