import Ecryptfs.KeyMod.Blobs
import Ecryptfs.KeyMod.KeySignature
import Ecryptfs.Messaging.KeyPayload
import Ecryptfs.Messaging.Replies

/-!
# The module `openssl`

The module keeps an RSA key in a PEM file under a passphrase and names both in its blob, so that every
operation begins by reading the file.  What it uses of OpenSSL are the fields of a structure `Openssl`,
with the behaviour that OpenSSL documents as `Openssl.Lawful`.

A function that reads a key empties the error queue on its way out, and the code of a failure is then
taken out of that queue: an operation whose key cannot be read returns 0, with the size 0.
-/

namespace Ecryptfs

open Memory

/-- The code of an error of OpenSSL, positive as an `int`. -/
abbrev ErrorCode := { e : ℕ // 0 < e ∧ e < 2 ^ 31 }

/-- What the module uses of OpenSSL; a `Seed` is what an operation draws from the random generator.
`pemWrite` tells whether the key was written, and what the file then holds. -/
structure Openssl where
  Rsa : Type
  Seed : Type
  n : Rsa → ℕ
  e : Rsa → ℕ
  publicEncrypt : Rsa → Seed → List UInt8 → Except ErrorCode (List UInt8)
  privateDecrypt : Rsa → List UInt8 → Except ErrorCode (List UInt8)
  pemWrite : Rsa → Seed → CStr → Bool × List UInt8
  pemRead : List UInt8 → CStr → Option Rsa
  sha1 : List UInt8 → Vector UInt8 20

/-- `ERR_get_error`: the code of the earliest error in the queue of the thread, or 0. -/
def errGetError : List ErrorCode → ℤ
  | [] => 0
  | e :: _ => e.1

/-- The files that can be read, by their paths. -/
abbrev KeyFiles := CStr → Option (List UInt8)

/-- The tokens in the keyring of the user, by the signatures they are found under. -/
abbrev TokenRing := CStr → Option PrivateKeyTok

/-- Whether the allocation and the `BIO_new` of a call of `ecryptfs_openssl_read_key` succeed. -/
structure ReadCalls where
  malloc : Bool
  bio : Bool

namespace Openssl

variable (lib : Openssl)

/-- `RSA_size`. -/
def rsaSize (rsa : lib.Rsa) : ℕ := bytesOfBits (bnNumBits (lib.n rsa))

/-- What OpenSSL documents: with OAEP padding a text has to be shorter than the modulus by more than 41
bytes, an encrypted text is as long as the modulus and is decrypted to the text, and a key is read under
the passphrase under which it was written. -/
structure Lawful : Prop where
  encrypts_iff : ∀ rsa seed text,
    (∃ c, lib.publicEncrypt rsa seed text = .ok c) ↔ text.length + 41 < lib.rsaSize rsa
  length_encrypted : ∀ rsa seed text c, lib.publicEncrypt rsa seed text = .ok c →
    c.length = lib.rsaSize rsa
  decrypt_encrypted : ∀ rsa seed text c, lib.publicEncrypt rsa seed text = .ok c →
    lib.privateDecrypt rsa c = .ok text
  length_decrypted : ∀ rsa c text, lib.privateDecrypt rsa c = .ok text →
    text.length ≤ lib.rsaSize rsa
  read_written : ∀ rsa seed passphrase content, lib.pemWrite rsa seed passphrase = (true, content) →
    lib.pemRead content passphrase = some rsa

/-- The signature that `ecryptfs_openssl_generate_signature` writes, from a buffer allocated over the given
memory. -/
def keySig (fresh : Bytes) (rsa : lib.Rsa) : CStr :=
  toHex ((lib.sha1 ((opensslGenerateSignature (lib.n rsa) (lib.e rsa)).hashed fresh)).toList.take sigSize)

/-! ## Reading and writing keys -/

/-- `ecryptfs_openssl_read_key`.  The texts of a blob that the module serialized end inside it. -/
def readKey (calls : ReadCalls) (files : KeyFiles) (blob : List UInt8) : Except ℤ lib.Rsa :=
  if calls.malloc = false then .error (-enomem)
  else
    let data := opensslDeserialize (holding blob fun _ => 0)
    if calls.bio = false then .error (-eio)
    else
      match files (cString (blob.drop data.path)) with
      | none => .error (-eio)
      | some content =>
        match lib.pemRead content (cString (blob.drop data.passphrase)) with
        | none => .error (-enokey)
        | some rsa => .ok rsa

/-- What the calls of `ecryptfs_openssl_write_key_to_file` return: the `strdup`, the code of
`ecryptfs_openssl_mkdir_recursive`, the `BIO_new` and the `BIO_write_filename`. -/
structure WriteCalls where
  strdup : Bool
  mkdirRc : ℤ
  bio : Bool
  opens : Bool
  seed : lib.Seed

/-- `ecryptfs_openssl_write_key_to_file`.  A code of the directories is only replaced by a later one. -/
def writeKeyToFile (calls : lib.WriteCalls) (rsa : lib.Rsa) (filename passphrase : CStr)
    (files : KeyFiles) : ℤ × KeyFiles :=
  if calls.strdup = false then (-enomem, files)
  else if calls.bio = false then (-eio, files)
  else if calls.opens = false then (-eio, files)
  else
    let (written, content) := lib.pemWrite rsa calls.seed passphrase
    (if written then calls.mkdirRc else -eio, Function.update files filename (some content))

/-- `ecryptfs_openssl_generate_key`, with what `RSA_generate_key` returns. -/
def generateKey (generated : Option lib.Rsa) (calls : lib.WriteCalls) (path passphrase : CStr)
    (files : KeyFiles) : ℤ × KeyFiles :=
  match generated with
  | none => (-enomem, files)
  | some rsa =>
    let (rc, files) := lib.writeKeyToFile calls rsa path passphrase files
    (if rc ≠ 0 then -eio else 0, files)

/-! ## The operations on keys -/

/-- What a call of an operation returns, the size it reports and the bytes it writes. -/
structure Operated where
  rc : ℤ
  toSize : ℕ
  written : List UInt8

/-- The common body of `ecryptfs_openssl_encrypt` and `ecryptfs_openssl_decrypt`. -/
def operate (read : Except ℤ lib.Rsa) (op : lib.Rsa → Except ErrorCode (List UInt8))
    (buffer : Bool) : Operated :=
  match read with
  -- the queue was emptied when the key was read
  | .error _ => ⟨-errGetError [], 0, []⟩
  | .ok rsa =>
    if buffer then
      match op rsa with
      | .error e => ⟨-errGetError [e], lib.rsaSize rsa, []⟩
      | .ok out => ⟨0, out.length, out⟩
    else ⟨0, lib.rsaSize rsa, []⟩

/-- `ecryptfs_openssl_encrypt`. -/
def encrypt (read : Except ℤ lib.Rsa) (seed : lib.Seed) (text : List UInt8) (buffer : Bool) :
    Operated :=
  lib.operate read (lib.publicEncrypt · seed text) buffer

/-- `ecryptfs_openssl_decrypt`. -/
def decrypt (read : Except ℤ lib.Rsa) (text : List UInt8) (buffer : Bool) : Operated :=
  lib.operate read (lib.privateDecrypt · text) buffer

/-- The two calls of an operation, into a buffer allocated over the given memory. -/
def keyCalls (fresh : Bytes) (sized done : Operated) : KeyCalls :=
  ⟨sized.rc, sized.toSize, done.rc, done.toSize, holding done.written fresh⟩

/-! ## Putting a key into the keyring -/

/-- What the calls of `ecryptfs_openssl_process_key` and `limit_key_size` find: the allocations of the
blob, the token and the hash, the code of `add_key` if it fails, the texts that are printed and pushed,
and the two readings of the key. -/
structure MountCalls where
  blobMalloc : Bool
  tokMalloc : Bool
  sigRead : ReadCalls
  hashMalloc : Bool
  fresh : Bytes
  addKey : Option ℤ
  sigText : Bool
  sigPush : Bool
  limitRead : ReadCalls
  limitText : Bool
  limitPush : Bool

/-- `ecryptfs_openssl_get_key_sig`. -/
def getKeySig (calls : MountCalls) (files : KeyFiles) (blob : List UInt8) : ℤ × CStr :=
  match lib.readKey calls.sigRead files blob with
  | .error rc => (rc, [])
  | .ok rsa => if calls.hashMalloc = false then (-enomem, []) else (0, lib.keySig calls.fresh rsa)

end Openssl

/-- `ecryptfs_add_key_module_key_to_keyring` for a module that has its blob at hand: the code, the
signature that is written, and the keyring. -/
def addKeyModuleKeyToKeyring (malloc : Bool) (addKey : Option ℤ) (calls : PayloadCalls) (blobSize : ℕ)
    (m : KeyMod) (sig : CStr) (ring : TokenRing) : Except PayloadFailure (ℤ × CStr) × TokenRing :=
  if malloc = false then (.error (.rc (-enomem)), ring)
  else
    match generateKeyPayload calls m sig blobSize with
    | .error failure => (.error failure, ring)
    | .ok tok =>
      -- the token holds the text that was written to `auth_tok_sig`
      if (ring tok.signature).isSome then (.ok (1, tok.signature), ring)
      else
        match addKey with
        | some errno => (.error (.rc (-errno)), ring)
        | none => (.ok (0, tok.signature), Function.update ring tok.signature (some tok))

namespace Openssl

variable (lib : Openssl)

/-- The answers of the module while its token is built: it has no data of keys. -/
def payloadCalls (calls : MountCalls) (files : KeyFiles) (blob : List UInt8) : PayloadCalls where
  blob := some blob
  getBlob := (0, [])
  keyDataLen := (0, 0)
  keyData := (0, [])
  keySig := lib.getKeySig calls files blob

/-- The decimal text of an `int`. -/
def intText (i : ℤ) : CStr := if i < 0 then 45 :: decimalText i.natAbs else decimalText i.natAbs

/-- The largest session key that `limit_key_size` allows for: 41 bytes are for the padding, and 3 are what
the kernel adds. -/
def maxKeyBytes (rsa : lib.Rsa) : ℤ := (lib.rsaSize rsa : ℤ) - 41 - 3

/-- `limit_key_size`: the option that is pushed, if any. -/
def limitKeySize (calls : MountCalls) (files : KeyFiles) (blob : List UInt8) : List CStr :=
  match lib.readKey calls.limitRead files blob with
  | .error _ => []
  | .ok rsa =>
    if calls.limitText = false ∨ calls.limitPush = false then []
    else [lit "max_key_bytes=" ++ intText (lib.maxKeyBytes rsa)]

/-- The blob of the module for a path and a passphrase. -/
def blobOf (path passphrase : CStr) : List UInt8 :=
  (opensslSerialize true ⟨some path, some passphrase⟩).written

/-- What `tf_ssl_passwd` does with a path and a passphrase, by `ecryptfs_openssl_process_key` and
`limit_key_size`: the options it pushes, unless it fails, and the keyring. -/
def processKey (calls : MountCalls) (files : KeyFiles) (path passphrase : CStr) (ring : TokenRing) :
    Except PayloadFailure (List CStr) × TokenRing :=
  if calls.blobMalloc = false then (.error (.rc (-enomem)), ring)
  else
    let blob := blobOf path passphrase
    match addKeyModuleKeyToKeyring calls.tokMalloc calls.addKey (lib.payloadCalls calls files blob)
        blob.length opensslModule [] ring with
    | (.error failure, ring) => (.error failure, ring)
    | (.ok (_, sig), ring) =>
      if calls.sigText = false ∨ calls.sigPush = false then (.error (.rc (-enomem)), ring)
      else (.ok ((lit "ecryptfs_sig=" ++ sig) :: lib.limitKeySize calls files blob), ring)

/-! ## Signatures -/

/-- `BN_bn2bin` writes as many bytes as are counted for a number. -/
theorem length_bnBn2bin (n : ℕ) : (bnBn2bin n).length = bytesOfBits (bnNumBits n) := by
  have size := BigEndian.length_toBytes_eq n
  unfold bnBn2bin bytesOfBits bnNumBits
  split_ifs <;> omega

/-- The signature of a key does not depend on the memory of the buffer that is hashed. -/
theorem keySig_fresh (fresh fresh' : Bytes) (rsa : lib.Rsa) :
    lib.keySig fresh rsa = lib.keySig fresh' rsa := by
  have exact_ : (opensslGenerateSignature (lib.n rsa) (lib.e rsa)).Exact :=
    sigData_exact (length_bnBn2bin _) (length_bnBn2bin _)
  unfold keySig
  rw [hashed_exact exact_, hashed_exact exact_]

theorem length_keySig (fresh : Bytes) (rsa : lib.Rsa) : (lib.keySig fresh rsa).length = sigSizeHex := by
  rw [keySig, length_toHex, List.length_take, Vector.length_toList]
  rfl

/-! ## The key behind a blob -/

/-- The path that a blob names. -/
def pathIn (blob : List UInt8) : CStr := cString (blob.drop 2)

/-- The key in the file that a blob names. -/
def keyIn (files : KeyFiles) (blob : List UInt8) : Option lib.Rsa :=
  (files (pathIn blob)).bind fun content =>
    lib.pemRead content (cString (blob.drop (opensslDeserialize (holding blob fun _ => 0)).passphrase))

/-- Everything that a reading allocates is there. -/
def Ready (calls : ReadCalls) : Prop := calls.malloc = true ∧ calls.bio = true

instance (calls : ReadCalls) : Decidable (Ready calls) := inferInstanceAs (Decidable (_ ∧ _))

/-- A key is read if and only if the file holds it and the allocations succeed. -/
theorem readKey_eq_ok {calls : ReadCalls} {files : KeyFiles} {blob : List UInt8} {rsa : lib.Rsa} :
    lib.readKey calls files blob = .ok rsa ↔ Ready calls ∧ lib.keyIn files blob = some rsa := by
  unfold readKey keyIn pathIn Ready
  obtain ⟨malloc, bio⟩ := calls
  cases malloc
  · simp
  · cases bio
    · simp
    · rcases opened : files (cString (blob.drop 2)) with _ | content
      · simp [opensslDeserialize, opened]
      · rcases read : lib.pemRead content (cString (blob.drop
            (opensslDeserialize (holding blob fun _ => 0)).passphrase)) with _ | key
        · simp [opensslDeserialize] at read ⊢
          simp [opened, read]
        · simp [opensslDeserialize] at read ⊢
          simp [opened, read]

/-- A reading that fails has a code of its own. -/
theorem readKey_error {calls : ReadCalls} {files : KeyFiles} {blob : List UInt8} {rc : ℤ}
    (failed : lib.readKey calls files blob = .error rc) : rc ≠ 0 := by
  have rcs : -enomem ≠ 0 ∧ -eio ≠ 0 ∧ -enokey ≠ 0 := by decide
  unfold readKey at failed
  dsimp only at failed
  split_ifs at failed
  · exact Except.error.inj failed ▸ rcs.1
  · exact Except.error.inj failed ▸ rcs.2.1
  · split at failed
    · exact Except.error.inj failed ▸ rcs.2.1
    · split at failed
      · exact Except.error.inj failed ▸ rcs.2.2
      · cases failed

/-- What a file holds is all that a reading depends on. -/
theorem keyIn_congr {files files' : KeyFiles} {blob : List UInt8}
    (same : files' (pathIn blob) = files (pathIn blob)) : lib.keyIn files' blob = lib.keyIn files blob := by
  unfold keyIn
  rw [same]

/-- The texts of a blob whose path is not too long. -/
theorem blobOf_texts {path : NulFree} (fits : path.1.length + 1 < 65536) (passphrase : NulFree) :
    pathIn (blobOf path.1 passphrase.1) = path.1 ∧ cString ((blobOf path.1 passphrase.1).drop
      (opensslDeserialize (holding (blobOf path.1 passphrase.1) fun _ => 0)).passphrase) = passphrase.1 := by
  have blob : blobOf path.1 passphrase.1 = lengthBytes (path.1.length + 1) ++ (path.1 ++ 0 ::
      (lengthBytes (passphrase.1.length + 1) ++ passphrase.1 ++ [0])) := by
    simp [blobOf, opensslSerialize, terminated]
  have text : ∀ (s : NulFree) (rest : List UInt8), cString (s.1 ++ 0 :: rest) = s.1 := by
    intro s rest
    unfold cString
    rw [List.takeWhile_append_of_pos (bne_of_mem s.2), List.takeWhile_cons_of_neg (by simp),
      List.append_nil]
  have pathLength : loadLength (holding (blobOf path.1 passphrase.1) fun _ => 0) 0 = path.1.length + 1 := by
    have loaded := loadLength_holding [] (path.1 ++ 0 :: (lengthBytes (passphrase.1.length + 1) ++
      passphrase.1 ++ [0])) (path.1.length + 1) fun _ => 0
    rw [List.nil_append, ← blob, Nat.mod_eq_of_lt fits] at loaded
    exact loaded
  refine ⟨?_, ?_⟩
  · have front : (blobOf path.1 passphrase.1).drop 2 =
        path.1 ++ 0 :: (lengthBytes (passphrase.1.length + 1) ++ passphrase.1 ++ [0]) := by
      rw [blob]
      rfl
    rw [pathIn, front]
    exact text path _
  · have front : (lengthBytes (path.1.length + 1) ++ (path.1 ++ 0 ::
        lengthBytes (passphrase.1.length + 1))).length = 2 + (path.1.length + 1) + 2 := by
      simp only [List.length_append, List.length_cons, length_lengthBytes]
      omega
    have rest : (blobOf path.1 passphrase.1).drop (2 + (path.1.length + 1) + 2) = passphrase.1 ++ 0 :: [] := by
      rw [← front, blob]
      have split : lengthBytes (path.1.length + 1) ++ (path.1 ++ 0 ::
          (lengthBytes (passphrase.1.length + 1) ++ passphrase.1 ++ [0])) =
          (lengthBytes (path.1.length + 1) ++ (path.1 ++ 0 :: lengthBytes (passphrase.1.length + 1))) ++
            (passphrase.1 ++ 0 :: []) := by simp
      rw [split, List.drop_left]
    show cString ((blobOf path.1 passphrase.1).drop
      (2 + loadLength (holding (blobOf path.1 passphrase.1) fun _ => 0) 0 + 2)) = passphrase.1
    rw [pathLength, rest]
    exact text passphrase []

/-- The key behind the blob for a path and a passphrase. -/
theorem keyIn_blobOf {path : NulFree} (fits : path.1.length + 1 < 65536) (passphrase : NulFree)
    (files : KeyFiles) : lib.keyIn files (blobOf path.1 passphrase.1) =
      (files path.1).bind fun content => lib.pemRead content passphrase.1 := by
  obtain ⟨pathText, passphraseText⟩ := blobOf_texts fits passphrase
  unfold keyIn
  rw [pathText, passphraseText]

variable {lib}

/-- A key that is written without an error is what the file then holds. -/
theorem writeKeyToFile_done {calls : lib.WriteCalls} {rsa : lib.Rsa} {filename passphrase : CStr}
    {files : KeyFiles} (zero : (lib.writeKeyToFile calls rsa filename passphrase files).1 = 0) :
    ∃ content, lib.pemWrite rsa calls.seed passphrase = (true, content) ∧
      (lib.writeKeyToFile calls rsa filename passphrase files).2 =
        Function.update files filename (some content) := by
  have rcs : -enomem ≠ 0 ∧ -eio ≠ 0 := by decide
  unfold writeKeyToFile at zero ⊢
  by_cases strdup : calls.strdup = false
  · rw [if_pos strdup] at zero
    exact absurd zero rcs.1
  by_cases bio : calls.bio = false
  · rw [if_neg strdup, if_pos bio] at zero
    exact absurd zero rcs.2
  by_cases opens : calls.opens = false
  · rw [if_neg strdup, if_neg bio, if_pos opens] at zero
    exact absurd zero rcs.2
  rw [if_neg strdup, if_neg bio, if_neg opens] at zero ⊢
  rcases wrote : lib.pemWrite rsa calls.seed passphrase with ⟨written, content⟩
  rw [wrote] at zero
  cases written
  · exact absurd zero rcs.2
  · exact ⟨content, rfl, rfl⟩

theorem generateKey_some (rsa : lib.Rsa) (calls : lib.WriteCalls) (path passphrase : CStr)
    (files : KeyFiles) : lib.generateKey (some rsa) calls path passphrase files =
      (if (lib.writeKeyToFile calls rsa path passphrase files).1 ≠ 0 then -eio else 0,
        (lib.writeKeyToFile calls rsa path passphrase files).2) := rfl

/-- A key that was generated without an error is the key in its file. -/
theorem generateKey_keyIn (lawful : lib.Lawful) {path : NulFree} (fits : path.1.length + 1 < 65536)
    {passphrase : NulFree} {generated : Option lib.Rsa} {calls : lib.WriteCalls} {files files' : KeyFiles}
    (done : lib.generateKey generated calls path.1 passphrase.1 files = (0, files')) :
    ∃ rsa, generated = some rsa ∧ lib.keyIn files' (blobOf path.1 passphrase.1) = some rsa := by
  rcases generated with _ | rsa
  · cases congrArg Prod.fst done
  · rw [generateKey_some] at done
    obtain ⟨zero, rfl⟩ := Prod.mk.inj done
    have zero : (lib.writeKeyToFile calls rsa path.1 passphrase.1 files).1 = 0 := by
      by_contra failed
      rw [if_pos failed] at zero
      cases zero
    obtain ⟨content, wrote, files'⟩ := writeKeyToFile_done zero
    refine ⟨rsa, rfl, ?_⟩
    rw [keyIn_blobOf lib fits, files', Function.update_self, Option.bind_some]
    exact lawful.read_written rsa calls.seed passphrase.1 content wrote

/-- Generating a key leaves the other files alone. -/
theorem generateKey_other {generated : Option lib.Rsa} {calls : lib.WriteCalls} {path passphrase : CStr}
    {files : KeyFiles} {other : CStr} (apart : other ≠ path) :
    (lib.generateKey generated calls path passphrase files).2 other = files other := by
  rcases generated with _ | rsa
  · rfl
  · rw [generateKey_some]
    show (lib.writeKeyToFile calls rsa path passphrase files).2 other = files other
    unfold writeKeyToFile
    split_ifs
    · rfl
    · rfl
    · rfl
    · exact Function.update_of_ne apart _ _

/-! ## What `process_key` does -/

/-- The token of a key. -/
def tokOf (blob : List UInt8) (sig : CStr) : PrivateKeyTok where
  version := ((versionMajor <<< 8) &&& 0xFF00) ||| (versionMinor &&& 0x00FF)
  tokenType := privateKeyType
  keySize := maxKeyModNameBytes
  dataLen := blob.length
  signature := sig
  keyModAlias := "openssl"
  data := blob

/-- The token that is built for a blob: its signature is that of the key in the file. -/
theorem generateKeyPayload_openssl {calls : MountCalls} {files : KeyFiles} {blob : List UInt8}
    {tok : PrivateKeyTok} : generateKeyPayload (lib.payloadCalls calls files blob) opensslModule []
      blob.length = .ok tok ↔ Ready calls.sigRead ∧ calls.hashMalloc = true ∧
        ∃ rsa, lib.keyIn files blob = some rsa ∧ tok = tokOf blob (lib.keySig calls.fresh rsa) := by
  have built : generateKeyPayload (lib.payloadCalls calls files blob) opensslModule [] blob.length =
      (payloadSig (lib.payloadCalls calls files blob) []).map fun sig => tokOf blob (sig.take sigSizeHex) := by
    show generateKeyPayload.withBlob _ _ _ _ blob = _
    unfold generateKeyPayload.withBlob
    rw [if_neg (not_not.mpr rfl)]
    rfl
  have sig : payloadSig (lib.payloadCalls calls files blob) [] =
      if (lib.getKeySig calls files blob).1 ≠ 0 then .error (.rc (lib.getKeySig calls files blob).1)
      else .ok (lib.getKeySig calls files blob).2 := rfl
  rw [built, sig]
  unfold getKeySig
  rcases read : lib.readKey calls.sigRead files blob with rc | rsa
  · have failed : rc ≠ 0 := readKey_error lib read
    rw [if_pos failed]
    constructor
    · intro done
      cases done
    · rintro ⟨ready, -, rsa, key, -⟩
      rw [(readKey_eq_ok lib).mpr ⟨ready, key⟩] at read
      cases read
  · obtain ⟨ready, key⟩ := (readKey_eq_ok lib).mp read
    cases hash : calls.hashMalloc
    · simp [Except.map, enomem]
    · have whole : (lib.keySig calls.fresh rsa).take sigSizeHex = lib.keySig calls.fresh rsa :=
        List.take_of_length_le (length_keySig lib _ rsa).le
      simp [Except.map, ready, key, whole, eq_comm]

/-- What putting a key into the keyring does to the keyring: nothing, or it gets the token of the key in the
file under the signature of that key, if it had none there. -/
theorem addOpenssl_ring (lib : Openssl) (calls : MountCalls) (files : KeyFiles) (blob : List UInt8)
    (ring : TokenRing) :
    (addKeyModuleKeyToKeyring calls.tokMalloc calls.addKey (lib.payloadCalls calls files blob) blob.length
        opensslModule [] ring).2 = ring ∨
      ∃ rsa, lib.keyIn files blob = some rsa ∧ ring (lib.keySig calls.fresh rsa) = none ∧
        (addKeyModuleKeyToKeyring calls.tokMalloc calls.addKey (lib.payloadCalls calls files blob)
          blob.length opensslModule [] ring).2 = Function.update ring (lib.keySig calls.fresh rsa)
            (some (tokOf blob (lib.keySig calls.fresh rsa))) := by
  unfold addKeyModuleKeyToKeyring
  split_ifs with malloc
  · exact .inl rfl
  · rcases built : generateKeyPayload (lib.payloadCalls calls files blob) opensslModule [] blob.length with
      failure | tok
    · exact .inl rfl
    · obtain ⟨-, -, rsa, key, rfl⟩ := generateKeyPayload_openssl.mp built
      dsimp only
      split_ifs with present
      · exact .inl rfl
      · cases calls.addKey with
        | some errno => exact .inl rfl
        | none => exact .inr ⟨rsa, key, Option.not_isSome_iff_eq_none.mp present, rfl⟩

theorem processKey_snd (calls : MountCalls) (files : KeyFiles) (path passphrase : CStr) (ring : TokenRing) :
    (lib.processKey calls files path passphrase ring).2 =
      if calls.blobMalloc = false then ring
      else (addKeyModuleKeyToKeyring calls.tokMalloc calls.addKey
        (lib.payloadCalls calls files (blobOf path passphrase)) (blobOf path passphrase).length
        opensslModule [] ring).2 := by
  unfold processKey
  by_cases malloc : calls.blobMalloc = false
  · rw [if_pos malloc, if_pos malloc]
  · rw [if_neg malloc, if_neg malloc]
    dsimp only
    rcases addKeyModuleKeyToKeyring calls.tokMalloc calls.addKey
      (lib.payloadCalls calls files (blobOf path passphrase)) (blobOf path passphrase).length
      opensslModule [] ring with ⟨failure | ⟨rc, sig⟩, after⟩
    · rfl
    · dsimp only
      split_ifs
      · rfl
      · rfl

theorem processKey_ring (lib : Openssl) (calls : MountCalls) (files : KeyFiles) (path passphrase : CStr)
    (ring : TokenRing) :
    (lib.processKey calls files path passphrase ring).2 = ring ∨
      ∃ rsa, lib.keyIn files (blobOf path passphrase) = some rsa ∧
        ring (lib.keySig calls.fresh rsa) = none ∧
        (lib.processKey calls files path passphrase ring).2 =
          Function.update ring (lib.keySig calls.fresh rsa)
            (some (tokOf (blobOf path passphrase) (lib.keySig calls.fresh rsa))) := by
  rcases addOpenssl_ring lib calls files (blobOf path passphrase) ring with same | added
  · left
    rw [processKey_snd, same, ite_self]
  · rw [processKey_snd]
    split_ifs
    · exact .inl rfl
    · exact .inr added

theorem limitKeySize_pushes {calls : MountCalls} {files : KeyFiles} {blob : List UInt8} :
    ∀ p ∈ lib.limitKeySize calls files blob, lit "max_key_bytes=" <+: p := by
  unfold limitKeySize
  intro p among
  split at among
  · cases among
  · split_ifs at among
    · cases among
    · rw [List.mem_singleton.mp among]
      exact List.prefix_append _ _

/-- A key pushes its signature and perhaps a limit. -/
theorem processKey_pushes {calls : MountCalls} {files : KeyFiles} {path passphrase : CStr} {ring : TokenRing}
    {pushed : List CStr} (processed : (lib.processKey calls files path passphrase ring).1 = .ok pushed) :
    ∀ p ∈ pushed, lit "ecryptfs_sig=" <+: p ∨ lit "max_key_bytes=" <+: p := by
  unfold processKey at processed
  by_cases malloc : calls.blobMalloc = false
  · rw [if_pos malloc] at processed
    cases processed
  · rw [if_neg malloc] at processed
    dsimp only at processed
    generalize addKeyModuleKeyToKeyring calls.tokMalloc calls.addKey
      (lib.payloadCalls calls files (blobOf path passphrase)) (blobOf path passphrase).length
      opensslModule [] ring = added at processed
    obtain ⟨failure | ⟨rc, sig⟩, after⟩ := added
    · cases processed
    · dsimp only at processed
      split_ifs at processed
      obtain rfl := Except.ok.inj processed
      intro p among
      rcases List.mem_cons.mp among with rfl | among
      · exact .inl (List.prefix_append _ _)
      · exact .inr (limitKeySize_pushes p among)

/-- All that a mount allocates is there, and nothing it calls fails. -/
structure MountCalls.Ready (calls : MountCalls) : Prop where
  blobMalloc : calls.blobMalloc = true
  tokMalloc : calls.tokMalloc = true
  sigRead : Openssl.Ready calls.sigRead
  hashMalloc : calls.hashMalloc = true
  addKey : calls.addKey = none
  sigText : calls.sigText = true
  sigPush : calls.sigPush = true
  limitRead : Openssl.Ready calls.limitRead
  limitText : calls.limitText = true
  limitPush : calls.limitPush = true

/-- A mount with the key in a file pushes its signature and the limit for session keys, and the keyring has
a token for the signature. -/
theorem processKey_ready {calls : MountCalls} (ready : calls.Ready) {files : KeyFiles}
    {path passphrase : CStr} (ring : TokenRing) {rsa : lib.Rsa}
    (key : lib.keyIn files (blobOf path passphrase) = some rsa) :
    (lib.processKey calls files path passphrase ring).1 =
        .ok [lit "ecryptfs_sig=" ++ lib.keySig calls.fresh rsa,
          lit "max_key_bytes=" ++ intText (lib.maxKeyBytes rsa)] ∧
      ((lib.processKey calls files path passphrase ring).2 (lib.keySig calls.fresh rsa)).isSome := by
  have built := generateKeyPayload_openssl.mpr ⟨ready.sigRead, ready.hashMalloc, rsa, key, rfl⟩
  have limit : lib.limitKeySize calls files (blobOf path passphrase) =
      [lit "max_key_bytes=" ++ intText (lib.maxKeyBytes rsa)] := by
    unfold limitKeySize
    rw [(readKey_eq_ok lib).mpr ⟨ready.limitRead, key⟩]
    simp [ready.limitText, ready.limitPush]
  unfold processKey addKeyModuleKeyToKeyring
  dsimp only
  rw [built]
  simp only [ready.blobMalloc, ready.tokMalloc, ready.addKey, ready.sigText, ready.sigPush, limit,
    Bool.true_eq_false, if_false, or_self, tokOf]
  by_cases present : (ring (lib.keySig calls.fresh rsa)).isSome
  · rw [if_pos present]
    exact ⟨rfl, present⟩
  · rw [if_neg present]
    exact ⟨rfl, by simp⟩

end Openssl

end Ecryptfs
