import Ecryptfs.Messaging.Packets
import Ecryptfs.Passphrase.Signature

/-!
# Tokens of key modules

The token that `ecryptfs_generate_key_payload` builds for a key carries the alias of the key's module,
cut to the sixteen bytes of its field.  The daemon takes the first module whose alias is a prefix of
that text.  So a module is found again exactly when its alias was not cut and no module registered
before it has an alias that is a prefix of it.
-/

namespace Ecryptfs

def maxKeyModNameBytes : ℕ := 16
def versionMajor : UInt16 := 0
def versionMinor : UInt16 := 4

/-- `ECRYPTFS_PRIVATE_KEY`. -/
def privateKeyType : UInt16 := 1

/-- The token of a key, with the texts in its fields. -/
structure PrivateKeyTok where
  version : UInt16
  tokenType : UInt16
  keySize : ℕ
  dataLen : ℕ
  signature : CStr
  keyModAlias : CStr
  data : List UInt8

/-- What the daemon uses of a token. -/
def PrivateKeyTok.authTok (tok : PrivateKeyTok) : AuthTok := ⟨tok.keyModAlias, tok.data⟩

/-- What a module answers while a token is built for it: the blob it already has, or else the code
and the blob of `get_blob`; the code and the length of the first call of `get_key_data`; the code and
the data of the second one; and the code and the signature of `get_key_sig`. -/
structure PayloadCalls where
  blob : Option (List UInt8)
  getBlob : ℤ × List UInt8
  keyDataLen : ℤ × ℕ
  keyData : ℤ × List UInt8
  keySig : ℤ × CStr

/-- How the construction of a token can fail: with a code, or by ending the program. -/
inductive PayloadFailure where
  | rc (code : ℤ)
  | exit
  deriving DecidableEq

/-- `ecryptfs_generate_sig_from_key_data` knows no type of key data. -/
def generateSigFromKeyData (_keyData : List UInt8) : ℤ := -einval

/-- The signature of the key, out of the key data or from the module. -/
def payloadSig (calls : PayloadCalls) (sig : CStr) : Except PayloadFailure CStr :=
  if calls.keyDataLen.1 ≠ 0 then .error (.rc calls.keyDataLen.1)
  else if calls.keyDataLen.2 = 0 then getKeySig
  else if calls.keyData.1 ≠ 0 then .error (.rc calls.keyData.1)
  else if generateSigFromKeyData calls.keyData.2 ≠ 0 then
    .error (.rc (generateSigFromKeyData calls.keyData.2))
  else if sig = [] then getKeySig
  else .ok sig
where
  getKeySig : Except PayloadFailure CStr :=
    if calls.keySig.1 ≠ 0 then .error (.rc calls.keySig.1) else .ok calls.keySig.2

/-- `ecryptfs_generate_key_payload`, for a token of the given blob size.  The field of the alias is
zeroed before and one byte longer than what is copied, so that its text is always terminated. -/
def generateKeyPayload (calls : PayloadCalls) (m : KeyMod) (sig : CStr) (blobSize : ℕ) :
    Except PayloadFailure PrivateKeyTok :=
  match calls.blob, calls.getBlob with
  | some blob, _ => withBlob blob
  | none, (rc, blob) => if rc ≠ 0 then .error (.rc rc) else withBlob blob
where
  withBlob (blob : List UInt8) : Except PayloadFailure PrivateKeyTok :=
    if blobSize ≠ blob.length then .error .exit
    else (payloadSig calls sig).map fun sig =>
      { version := ((versionMajor <<< 8) &&& 0xFF00) ||| (versionMinor &&& 0x00FF)
        tokenType := privateKeyType
        keySize := maxKeyModNameBytes
        dataLen := blobSize
        signature := sig.take sigSizeHex
        keyModAlias := m.modAlias.take maxKeyModNameBytes
        data := blob }

/-- Whatever the module answers, the token carries the alias up to the size of its field. -/
theorem generateKeyPayload_alias {calls : PayloadCalls} {m : KeyMod} {sig : CStr} {blobSize : ℕ}
    {tok : PrivateKeyTok} (built : generateKeyPayload calls m sig blobSize = .ok tok) :
    tok.keyModAlias = m.modAlias.take maxKeyModNameBytes := by
  have fromBlob : ∀ blob, generateKeyPayload.withBlob calls m sig blobSize blob = .ok tok →
      tok.keyModAlias = m.modAlias.take maxKeyModNameBytes := by
    intro blob made
    unfold generateKeyPayload.withBlob at made
    split at made
    · cases made
    · cases signed : payloadSig calls sig with
      | error failure =>
        rw [signed] at made
        cases made
      | ok s =>
        rw [signed] at made
        cases made
        rfl
  unfold generateKeyPayload at built
  split at built
  · exact fromBlob _ built
  · split at built
    · cases built
    · exact fromBlob _ built

/-- A module in a list is the first one found under a text if and only if its alias is a prefix of
the text and no alias before it is. -/
theorem findKeyMod_eq_iff {before after : List KeyMod} {m : KeyMod} (text : CStr)
    (distinct : ((before ++ m :: after).map KeyMod.modAlias).Nodup) :
    findKeyMod (before ++ m :: after) text = some m ↔
      m.modAlias <+: text ∧ ∀ k ∈ before, ¬ k.modAlias <+: text := by
  have once : m ∉ before ∧ m ∉ after := by
    have nodup : (before ++ m :: after).Nodup := List.Nodup.of_map _ distinct
    rw [List.nodup_middle, List.nodup_cons, List.mem_append, not_or] at nodup
    exact nodup.1
  unfold findKeyMod
  rw [List.find?_append]
  constructor
  · intro found
    cases earlier : before.find? fun k => k.modAlias.isPrefixOf text with
    | some k =>
      rw [earlier, Option.some_or, Option.some.injEq] at found
      exact absurd (found ▸ List.mem_of_find?_eq_some earlier) once.1
    | none =>
      rw [earlier, Option.none_or] at found
      have none : ∀ k ∈ before, ¬ k.modAlias <+: text := by
        intro k among isPrefix
        exact List.find?_eq_none.mp earlier k among (List.isPrefixOf_iff_prefix.mpr isPrefix)
      by_cases here : m.modAlias <+: text
      · exact ⟨here, none⟩
      · have skipped : m.modAlias.isPrefixOf text = false := by
          rwa [Bool.eq_false_iff, ne_eq, List.isPrefixOf_iff_prefix]
        rw [List.find?_cons, skipped] at found
        exact absurd (List.mem_of_find?_eq_some found) once.2
  · rintro ⟨here, none⟩
    have earlier : (before.find? fun k => k.modAlias.isPrefixOf text) = .none := by
      rw [List.find?_eq_none]
      intro k among isPrefix
      exact none k among (List.isPrefixOf_iff_prefix.mp isPrefix)
    have isPrefix : m.modAlias.isPrefixOf text = true := List.isPrefixOf_iff_prefix.mpr here
    rw [earlier, Option.none_or, List.find?_cons, isPrefix]

/-- The daemon finds the module of a token again if and only if the alias fits into the field of the
token and is not extended by it: no module before it in the list has an alias that is a prefix. -/
theorem payload_resolves_iff (before after : List KeyMod) (m : KeyMod) (calls : PayloadCalls)
    (sig : CStr) (blobSize : ℕ) (tok : PrivateKeyTok)
    (distinct : ((before ++ m :: after).map KeyMod.modAlias).Nodup)
    (built : generateKeyPayload calls m sig blobSize = .ok tok) :
    findKeyMod (before ++ m :: after) tok.authTok.keyModAlias = some m ↔
      m.modAlias.length ≤ maxKeyModNameBytes ∧ ∀ k ∈ before, ¬ k.modAlias <+: m.modAlias := by
  have carried : tok.authTok.keyModAlias = m.modAlias.take maxKeyModNameBytes :=
    generateKeyPayload_alias built
  rw [carried, findKeyMod_eq_iff _ distinct]
  by_cases fits : m.modAlias.length ≤ maxKeyModNameBytes
  · rw [List.take_of_length_le fits]
    simp [fits]
  · have cut : ¬ m.modAlias <+: m.modAlias.take maxKeyModNameBytes := by
      intro isPrefix
      have short := isPrefix.length_le
      rw [List.length_take] at short
      omega
    simp [fits, cut]

/-- A module that has its blob and its signature at hand. -/
def readyCalls : PayloadCalls where
  blob := some [1, 2, 3]
  getBlob := (0, [])
  keyDataLen := (0, 0)
  keyData := (0, [])
  keySig := (0, "0123456789abcdef")

/-- The token of such a module. -/
def readyTok (m : KeyMod) : PrivateKeyTok where
  version := 4
  tokenType := 1
  keySize := 16
  dataLen := 3
  signature := "0123456789abcdef"
  keyModAlias := m.modAlias.take 16
  data := [1, 2, 3]

theorem payload_resolves_openssl :
    generateKeyPayload readyCalls ⟨"openssl"⟩ [] 3 = .ok (readyTok ⟨"openssl"⟩) ∧
      findKeyMod [⟨"pkcs11-helper"⟩, ⟨"openssl"⟩, ⟨"passphrase"⟩]
        (readyTok ⟨"openssl"⟩).authTok.keyModAlias = some ⟨"openssl"⟩ :=
  ⟨rfl, (payload_resolves_iff [⟨"pkcs11-helper"⟩] [⟨"passphrase"⟩] ⟨"openssl"⟩ readyCalls [] 3
    (readyTok ⟨"openssl"⟩) (by decide) rfl).mpr (by decide)⟩

/-- The token of a module is resolved to another one whose alias is a prefix, and that of a module
with a long alias to none. -/
theorem payload_misresolved :
    (generateKeyPayload readyCalls ⟨"openssl-engine"⟩ [] 3 = .ok (readyTok ⟨"openssl-engine"⟩) ∧
      findKeyMod [⟨"openssl"⟩, ⟨"openssl-engine"⟩] (readyTok ⟨"openssl-engine"⟩).authTok.keyModAlias =
        some ⟨"openssl"⟩) ∧
      generateKeyPayload readyCalls ⟨"pkcs11-smart-cards"⟩ [] 3 =
        .ok (readyTok ⟨"pkcs11-smart-cards"⟩) ∧
      findKeyMod [⟨"pkcs11-smart-cards"⟩] (readyTok ⟨"pkcs11-smart-cards"⟩).authTok.keyModAlias =
        none :=
  ⟨⟨rfl, by decide⟩, rfl, by decide⟩

end Ecryptfs
