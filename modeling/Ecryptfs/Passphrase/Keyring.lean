import Ecryptfs.Lib.Registry
import Ecryptfs.Messaging.KeyPayload
import Ecryptfs.Mount.Modules
import Ecryptfs.Passphrase.WrapProof

/-!
# Mount passphrases in the keyring

Two ways lead from a mount passphrase to the two keys of a mount, the one for the contents and the one
for the names.  `ecryptfs_insert_wrapped_passphrase_into_keyring` unwraps the passphrase from a file and
adds the key for the names first; `ecryptfs-add-passphrase --fnek` takes the passphrase from the user and
adds the key for the contents first.  A key is added under its signature, and only if the signature is
not taken, so that the order makes no difference as long as the signatures differ (`insert_agrees`).
-/

namespace Ecryptfs

open Memory Registry

/-- `ECRYPTFS_PASSWORD`, `ECRYPTFS_SESSION_KEY_ENCRYPTION_KEY_SET`, `ECRYPTFS_PERSISTENT_PASSWORD` and
`PGP_DIGEST_ALGO_SHA512`. -/
def passwordType : UInt16 := 0
def sessionKeyEncryptionKeySet : UInt32 := 2
def persistentPassword : UInt32 := 1
def pgpDigestAlgoSha512 : ℤ := 10

/-- The token of a passphrase, with the fields that are filled in; the others are zero. -/
structure PasswordTok where
  version : UInt16
  tokenType : UInt16
  signature : CStr
  salt : Salt
  sessionKeyEncryptionKey : Digest
  sessionKeyEncryptionKeyBytes : ℕ
  flags : UInt32
  hashAlgo : ℤ
  encryptedKeySize : ℕ
  deriving DecidableEq

/-- The payload of a key of the keyring: a token of a passphrase, or something else. -/
inductive KeyPayload where
  | password (tok : PasswordTok)
  | other (bytes : List UInt8)
  deriving DecidableEq

/-- The keys of type `user` in the user keyring, by their descriptions. -/
abbrev Keyring := CStr → Option KeyPayload

/-- What the calls of one addition come to: the `malloc` of the token, and the errors of `keyctl_search`,
other than that there is no key, and of `add_key`. -/
structure AddCalls where
  malloc : Bool
  searchError : Option ℕ
  addError : Option ℕ
  deriving DecidableEq

/-- No call of the addition fails. -/
def AddCalls.Succeed (calls : AddCalls) : Prop :=
  calls.malloc = true ∧ calls.searchError = none ∧ calls.addError = none

/-- The salt at a pointer to a text. -/
def saltAt (text : CStr) : Salt := Vector.ofFn fun i : Fin 8 => text.getD i 0

/-- The salt that the callers pass for the key for the names: `ECRYPTFS_DEFAULT_SALT_FNEK_HEX`, as it
is. -/
def saltFnek : Salt := saltAt "9988776655443322"

/-- `generate_payload`. -/
def generatePayload (sig : CStr) (salt : Salt) (fekek : Digest) : PasswordTok where
  version := ((versionMajor <<< 8) &&& 0xFF00) ||| (versionMinor &&& 0x00FF)
  tokenType := passwordType
  signature := sig.take sigSizeHex
  salt := salt
  sessionKeyEncryptionKey := fekek
  sessionKeyEncryptionKeyBytes := maxKeyBytes
  flags := (0 ||| sessionKeyEncryptionKeySet) &&& ~~~persistentPassword
  hashAlgo := pgpDigestAlgoSha512
  encryptedKeySize := 0

section

variable (nss : Nss)

/-- `ecryptfs_generate_passphrase_auth_tok`: the signature and the token. -/
def generatePassphraseAuthTok (malloc : Bool) (salt : Salt) (passphrase : CStr) :
    Except ℤ (CStr × PasswordTok) :=
  match generatePassphraseSig nss salt passphrase with
  | .error rc => .error (if rc < 0 then rc else -rc)
  | .ok s =>
    if malloc = false then .error (-enomem)
    else .ok (s.sig, generatePayload s.sig salt s.fekek)

/-- `ecryptfs_add_auth_tok_to_keyring`: the code and the keyring afterwards. -/
def addAuthTokToKeyring (calls : AddCalls) (tok : PasswordTok) (sig : CStr) (K : Keyring) :
    ℤ × Keyring :=
  match calls.searchError with
  | some errnum => (-errnum, K)
  | none =>
    if K sig ≠ none then (1, K)
    else
      match calls.addError with
      | some errnum => (-errnum, K)
      | none => (0, Function.update K sig (some (.password tok)))

/-- `ecryptfs_add_passphrase_key_to_keyring`. -/
def addPassphraseKeyToKeyring (calls : AddCalls) (passphrase : CStr) (salt : Salt) (K : Keyring) :
    ℤ × Keyring :=
  match generatePassphraseAuthTok nss calls.malloc salt passphrase with
  | .error rc => (rc, K)
  | .ok (sig, tok) => addAuthTokToKeyring calls tok sig K

/-- `ecryptfs_insert_wrapped_passphrase_into_keyring`, with the calls of its two additions. -/
def insertWrappedPassphraseIntoKeyring (adds : ℕ → AddCalls) (io : ReadIo) (file : Option (List UInt8))
    (wrappingPassphrase : CStr) (salt : Salt) (K : Keyring) : ℤ × Keyring :=
  match unwrapPassphrase nss io file wrappingPassphrase salt with
  | .error _ => (-eio, K)
  | .ok decrypted =>
    let passphrase := decrypted.takeWhile (· ≠ 0)
    let (rc, K) := addPassphraseKeyToKeyring nss (adds 0) passphrase saltFnek K
    if rc < 0 then (rc, K) else addPassphraseKeyToKeyring nss (adds 1) passphrase salt K

end

/-! ## The program `ecryptfs-add-passphrase` -/

/-- What the calls of the program come to: the code and the mask of `ecryptfs_get_version`, the text of
the salt in the configuration file of the user, if there is one, and the calls of its two additions. -/
structure AddToolCalls where
  version : ℤ × UInt32
  saltHex : Option (Vector UInt8 16)
  adds : ℕ → AddCalls

/-- The salt of the key for the contents. -/
def AddToolCalls.salt (calls : AddToolCalls) : Salt :=
  match calls.saltHex with
  | none => fromHex (holding defaultSaltHex fun _ => 0)
  | some text => fromHex (holding text.toList fun _ => 0)

/-- What the arguments ask for: with or without the key for the names; anything else is refused. -/
def fnekMode : List CStr → Option Bool
  | [] => some false
  | [first] => if first = "--fnek" then some true else if first = "-" then some false else none
  | [first, second] => if first = "--fnek" ∧ second = "-" then some true else none
  | _ => none

/-- The `main` of `ecryptfs-add-passphrase`, with the passphrase that the user gives: the exit status and
the keyring afterwards. -/
def addPassphraseMain (nss : Nss) (calls : AddToolCalls) (args : List CStr) (passphrase : Option CStr)
    (K : Keyring) : ℤ × Keyring :=
  match fnekMode args with
  | none => (0, K)
  | some fnek =>
    match passphrase with
    | none => (1, K)
    | some passphrase =>
      if maxPassphraseBytes < passphrase.length then (1, K)
      else if fnek ∧ (calls.version.1 ≠ 0 ∨
          supports calls.version.2 versioningFilenameEncryption = false) then (1, K)
      else
        let (rc, K) := addPassphraseKeyToKeyring nss (calls.adds 0) passphrase calls.salt K
        if rc < 0 then (1, K)
        else if fnek = false then (0, K)
        else
          let (rc, K) := addPassphraseKeyToKeyring nss (calls.adds 1) passphrase saltFnek K
          if rc < 0 then (1, K) else (0, K)

/-! ## Additions -/

section

variable {nss : Nss} {calls : AddCalls} {passphrase : CStr} {salt : Salt} {K : Keyring}
  {s : PassphraseSig}

/-- The payload of a key that has been generated from a passphrase. -/
def payloadOf (s : PassphraseSig) (salt : Salt) : KeyPayload :=
  .password (generatePayload s.sig salt s.fekek)

/-- An addition without failing calls registers the key. -/
theorem addPassphraseKeyToKeyring_succeeds (succeed : calls.Succeed)
    (generated : generatePassphraseSig nss salt passphrase = .ok s) :
    0 ≤ (addPassphraseKeyToKeyring nss calls passphrase salt K).1 ∧
      (addPassphraseKeyToKeyring nss calls passphrase salt K).2 = register s.sig (payloadOf s salt) K := by
  obtain ⟨allocated, searches, adds⟩ := succeed
  have tok : generatePassphraseAuthTok nss calls.malloc salt passphrase =
      .ok (s.sig, generatePayload s.sig salt s.fekek) := by
    rw [generatePassphraseAuthTok, generated, allocated]
    rfl
  unfold addPassphraseKeyToKeyring
  rw [tok]
  dsimp only
  unfold addAuthTokToKeyring register
  rw [searches, adds]
  by_cases free : K s.sig = none
  · rw [if_pos free]
    dsimp only
    rw [if_neg (not_not.mpr free)]
    exact ⟨le_rfl, rfl⟩
  · rw [if_neg free]
    dsimp only
    rw [if_pos free]
    exact ⟨zero_le_one, rfl⟩

/-- Whatever its calls come to, an addition of a key that is there already changes nothing. -/
theorem addPassphraseKeyToKeyring_again
    (generated : generatePassphraseSig nss salt passphrase = .ok s) (taken : K s.sig ≠ none) :
    (addPassphraseKeyToKeyring nss calls passphrase salt K).2 = K := by
  unfold addPassphraseKeyToKeyring generatePassphraseAuthTok
  rw [generated]
  dsimp only
  split_ifs with noMemory
  · rfl
  · dsimp only
    unfold addAuthTokToKeyring
    rcases calls.searchError with _ | errnum
    · dsimp only
      rw [if_pos taken]
    · rfl

end

/-! ## Both tools -/

section

variable {nss : Nss} {W P : CStr} {S : Salt} {file' : Option (List UInt8)}

/-- A file that has been produced by wrapping a passphrase gives the passphrase back. -/
theorem unwrap_produced (uninit : Vector UInt8 16) (ecb : AesEcb nss) {io : WriteIo}
    {file : Option (List UInt8)} (noNul : 0 ∉ P) (complete : io.Complete P)
    (wrapped : wrapPassphrase nss uninit io file W S P = (0, file')) :
    P.length ≤ maxPassphraseBytes ∧ ∃ out, unwrapPassphrase nss .complete file' W S = .ok out ∧
      out.takeWhile (· ≠ 0) = P := by
  obtain ⟨w, out, gen, fits, nonempty, enc, len, rfl⟩ := wrapPassphrase_success uninit ecb complete wrapped
  exact ⟨fits, _, unwrap_record ecb gen fits nonempty enc len, takeWhile_padded noNul _⟩

variable {sF sS : PassphraseSig} {K : Keyring}

/-- What the unwrapping tool leaves when its additions succeed. -/
theorem insertWrapped_succeeds {adds : ℕ → AddCalls} (succeed : ∀ i, (adds i).Succeed) {out : List UInt8}
    (unwrapped : unwrapPassphrase nss .complete file' W S = .ok out) (text : out.takeWhile (· ≠ 0) = P)
    (fnek : generatePassphraseSig nss saltFnek P = .ok sF) (fekek : generatePassphraseSig nss S P = .ok sS) :
    0 ≤ (insertWrappedPassphraseIntoKeyring nss adds .complete file' W S K).1 ∧
      (insertWrappedPassphraseIntoKeyring nss adds .complete file' W S K).2 =
        register sS.sig (payloadOf sS S) (register sF.sig (payloadOf sF saltFnek) K) := by
  have first := @addPassphraseKeyToKeyring_succeeds nss (adds 0) P saltFnek K sF (succeed 0) fnek
  unfold insertWrappedPassphraseIntoKeyring
  rw [unwrapped]
  dsimp only
  rw [text, if_neg (not_lt.mpr first.1), first.2]
  exact addPassphraseKeyToKeyring_succeeds (succeed 1) fekek

/-- What `ecryptfs-add-passphrase --fnek` leaves when its additions succeed. -/
theorem addPassphraseMain_succeeds {tool : AddToolCalls} (succeed : ∀ i, (tool.adds i).Succeed)
    {args : List CStr} (withFnek : fnekMode args = some true)
    (supported : tool.version.1 = 0 ∧ supports tool.version.2 versioningFilenameEncryption = true)
    (fits : P.length ≤ maxPassphraseBytes) (fnek : generatePassphraseSig nss saltFnek P = .ok sF)
    (fekek : generatePassphraseSig nss tool.salt P = .ok sS) :
    addPassphraseMain nss tool args (some P) K =
      (0, register sF.sig (payloadOf sF saltFnek) (register sS.sig (payloadOf sS tool.salt) K)) := by
  have first := @addPassphraseKeyToKeyring_succeeds nss (tool.adds 0) P tool.salt K sS (succeed 0) fekek
  have second := @addPassphraseKeyToKeyring_succeeds nss (tool.adds 1) P saltFnek
    (register sS.sig (payloadOf sS tool.salt) K) sF (succeed 1) fnek
  unfold addPassphraseMain
  rw [withFnek]
  dsimp only
  rw [if_neg (not_lt.mpr fits), if_neg (by simp [supported]), if_neg (not_lt.mpr first.1), if_neg (by simp),
    first.2, if_neg (not_lt.mpr second.1), second.2]

/-- The unwrapping tool changes nothing when both keys are there. -/
theorem insertWrapped_again {adds : ℕ → AddCalls} {out : List UInt8}
    (unwrapped : unwrapPassphrase nss .complete file' W S = .ok out) (text : out.takeWhile (· ≠ 0) = P)
    (fnek : generatePassphraseSig nss saltFnek P = .ok sF) (fekek : generatePassphraseSig nss S P = .ok sS)
    (taken : K sF.sig ≠ none) (taken' : K sS.sig ≠ none) :
    (insertWrappedPassphraseIntoKeyring nss adds .complete file' W S K).2 = K := by
  have first := @addPassphraseKeyToKeyring_again nss (adds 0) P saltFnek K sF fnek taken
  unfold insertWrappedPassphraseIntoKeyring
  rw [unwrapped]
  dsimp only
  rw [text]
  split_ifs with failed
  · exact first
  · rw [first]
    exact addPassphraseKeyToKeyring_again fekek taken'

/-- So does `ecryptfs-add-passphrase`, whatever its arguments are. -/
theorem addPassphraseMain_again {tool : AddToolCalls} {args : List CStr}
    (fnek : generatePassphraseSig nss saltFnek P = .ok sF)
    (fekek : generatePassphraseSig nss tool.salt P = .ok sS)
    (taken : K sF.sig ≠ none) (taken' : K sS.sig ≠ none) :
    (addPassphraseMain nss tool args (some P) K).2 = K := by
  have first := @addPassphraseKeyToKeyring_again nss (tool.adds 0) P tool.salt K sS fekek taken'
  have second := @addPassphraseKeyToKeyring_again nss (tool.adds 1) P saltFnek K sF fnek taken
  unfold addPassphraseMain
  rcases fnekMode args with _ | withFnek
  · rfl
  · dsimp only
    rw [first]
    split_ifs
    all_goals first | rfl | exact second

/-- **The tools agree.**  On a file that holds the passphrase wrapped,
`ecryptfs_insert_wrapped_passphrase_into_keyring` leaves the keyring that `ecryptfs-add-passphrase --fnek`
leaves on the passphrase itself; what was in the keyring stays, and a further run of either tool changes
nothing. -/
theorem insert_agrees (ecb : AesEcb nss) {uninit : Vector UInt8 16} {io : WriteIo}
    {file : Option (List UInt8)} (noNul : 0 ∉ P) (complete : io.Complete P)
    (wrapped : wrapPassphrase nss uninit io file W S P = (0, file'))
    {adds : ℕ → AddCalls} (inserts : ∀ i, (adds i).Succeed)
    {tool : AddToolCalls} (succeed : ∀ i, (tool.adds i).Succeed) {args : List CStr}
    (withFnek : fnekMode args = some true)
    (supported : tool.version.1 = 0 ∧ supports tool.version.2 versioningFilenameEncryption = true)
    (sameSalt : tool.salt = S)
    (differ : (generatePassphraseSig nss S P).map PassphraseSig.sig ≠
      (generatePassphraseSig nss saltFnek P).map PassphraseSig.sig) (K : Keyring) :
    let inserted := insertWrappedPassphraseIntoKeyring nss adds .complete file' W S K
    let added := addPassphraseMain nss tool args (some P) K
    0 ≤ inserted.1 ∧ added.1 = 0 ∧ inserted.2 = added.2 ∧
      (∀ sig payload, K sig = some payload → inserted.2 sig = some payload) ∧
      (∀ adds', (insertWrappedPassphraseIntoKeyring nss adds' .complete file' W S inserted.2).2 =
        inserted.2) ∧
      ∀ (tool' : AddToolCalls) (args' : List CStr), tool'.salt = S →
        (addPassphraseMain nss tool' args' (some P) inserted.2).2 = inserted.2 := by
  subst sameSalt
  obtain ⟨fits, out, unwrapped, text⟩ := unwrap_produced uninit ecb noNul complete wrapped
  obtain ⟨sF, fnek⟩ := generatePassphraseSig_ok nss ecb.hash saltFnek fits
  obtain ⟨sS, fekek⟩ := generatePassphraseSig_ok nss ecb.hash tool.salt fits
  have differ : sS.sig ≠ sF.sig := by
    intro same
    rw [fnek, fekek] at differ
    exact differ (congrArg Except.ok same)
  intro inserted added
  obtain ⟨code, result⟩ := @insertWrapped_succeeds nss W P tool.salt file' sF sS K adds inserts out unwrapped
    text fnek fekek
  have added_eq := @addPassphraseMain_succeeds nss P sF sS K tool succeed args withFnek supported fits fnek
    fekek
  have present : inserted.2 sS.sig ≠ none := by
    show (insertWrappedPassphraseIntoKeyring nss adds .complete file' W tool.salt K).2 sS.sig ≠ none
    rw [result]
    exact register_taken
  have present' : inserted.2 sF.sig ≠ none := by
    show (insertWrappedPassphraseIntoKeyring nss adds .complete file' W tool.salt K).2 sF.sig ≠ none
    rw [result]
    exact taken_register register_taken
  refine ⟨code, congrArg Prod.fst added_eq, ?_, fun sig payload old => ?_, fun adds' => ?_,
    fun tool' args' sameSalt => ?_⟩
  · calc inserted.2
        = register sS.sig (payloadOf sS tool.salt) (register sF.sig (payloadOf sF saltFnek) K) := result
      _ = register sF.sig (payloadOf sF saltFnek) (register sS.sig (payloadOf sS tool.salt) K) :=
          register_comm differ
      _ = added.2 := (congrArg Prod.snd added_eq).symm
  · show (insertWrappedPassphraseIntoKeyring nss adds .complete file' W tool.salt K).2 sig = some payload
    rw [result]
    exact register_keeps (register_keeps old)
  · exact insertWrapped_again unwrapped text fnek fekek present' present
  · rw [← sameSalt] at fekek
    exact addPassphraseMain_again fnek fekek present' present

end

/-- An NSS whose digests repeat the first byte of the input. -/
def firstByteNss : Nss := { plainNss with sha512 := fun src => Vector.replicate 64 (src.headD 0) }

theorem aesEcb_firstByteNss : AesEcb firstByteNss := { aesEcb_plainNss with hash := fun _ => rfl }

/-- Its keys and signatures spell the first byte of the salt. -/
theorem generatePassphraseSig_firstByteNss {passphrase : CStr} {salt : Salt} {b : UInt8}
    (fits : passphrase.length ≤ maxPassphraseBytes) (first : (salt.toList ++ passphrase).headD 0 = b) :
    generatePassphraseSig firstByteNss salt passphrase =
      .ok ⟨toHex (List.replicate 8 b), Vector.replicate 64 b⟩ := by
  have again : firstByteNss.sha512 (Vector.replicate 64 b).toList = Vector.replicate 64 b := rfl
  have start : firstByteNss.sha512 (salt.toList ++ passphrase) = Vector.replicate 64 b :=
    congrArg (Vector.replicate 64) first
  rw [generatePassphraseSig_eq firstByteNss (fun _ => rfl) salt fits, start, Function.iterate_fixed, again]
  · rfl
  · exact again

/-- The tool without a configuration file, on a kernel that encrypts file names. -/
def plainTool : AddToolCalls := ⟨(0, versioningFilenameEncryption), none, fun _ => ⟨true, none, none⟩⟩

/-- A keyring with one key that is not of a passphrase. -/
def foreignKeyring : Keyring := Function.update (fun _ => none) "foreign" (some (.other [1]))

/-- The tools agree on the passphrase `x`, wrapped under `w` over an existing file. -/
theorem insert_agrees_one :
    ∃ file', wrapPassphrase firstByteNss (.replicate 16 170) ⟨true, true, some 16, some 16⟩
        (some [1, 2, 3]) "w" plainTool.salt "x" = (0, file') ∧
      (insertWrappedPassphraseIntoKeyring firstByteNss plainTool.adds .complete file' "w" plainTool.salt
        foreignKeyring).2 =
      (addPassphraseMain firstByteNss plainTool ["--fnek"] (some "x") foreignKeyring).2 := by
  have gen : ∀ P : CStr, P.length ≤ maxPassphraseBytes →
      generatePassphraseSig firstByteNss plainTool.salt P =
        .ok ⟨toHex (List.replicate 8 0), Vector.replicate 64 0⟩ :=
    fun P fits => generatePassphraseSig_firstByteNss fits rfl
  have genFnek : generatePassphraseSig firstByteNss saltFnek "x" =
      .ok ⟨toHex (List.replicate 8 57), Vector.replicate 64 57⟩ :=
    generatePassphraseSig_firstByteNss (by decide) rfl
  have differ : (generatePassphraseSig firstByteNss plainTool.salt "x").map PassphraseSig.sig ≠
      (generatePassphraseSig firstByteNss saltFnek "x").map PassphraseSig.sig := by
    rw [gen _ (by decide), genFnek]
    intro same
    exact absurd (Except.ok.inj same) (by decide)
  have complete : WriteIo.Complete ⟨true, true, some 16, some 16⟩ "x" :=
    ⟨⟨16, rfl, le_rfl⟩, 16, rfl, by decide⟩
  obtain ⟨out, -, len, record⟩ := wrapRecord_ok (.replicate 16 170) aesEcb_firstByteNss
    (show (lit "x").length ≤ maxPassphraseBytes by decide) (gen "w" (by decide))
  have wrapped : wrapPassphrase firstByteNss (.replicate 16 170) ⟨true, true, some 16, some 16⟩
      (some [1, 2, 3]) "w" plainTool.salt "x" = (0, some (toHex (List.replicate 8 0) ++ out)) :=
    (wrapPassphrase_of_record _ record).trans
      (replaceFile_complete ⟨rfl, len⟩ complete (by decide) rfl rfl)
  have succeed : ∀ i, (plainTool.adds i).Succeed := fun _ => ⟨rfl, rfl, rfl⟩
  have withFnek : fnekMode ["--fnek"] = some true := rfl
  have agree := insert_agrees aesEcb_firstByteNss (by decide) complete wrapped succeed succeed withFnek
    ⟨rfl, by decide⟩ rfl differ foreignKeyring
  exact ⟨_, wrapped, agree.2.2.1⟩

end Ecryptfs
