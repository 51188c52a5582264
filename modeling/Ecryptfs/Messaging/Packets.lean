import Ecryptfs.Messaging.Miscdev

/-!
# Requests of the kernel

`parsePacket` answers one request: it decodes a type, a signature and a key out of the data of the
message, looks the signature up in the keyring, and has the key encrypted or decrypted by the key
module named in the token found there.  The message is the memory behind a pointer, so that decoding
can run past its end; `decodePacket` records the offsets it reads.  What the keyring and the key
modules answer is an argument, `KeyEnv`.  Allocation is taken to succeed.
-/

namespace Ecryptfs

open Memory

def tag64Packet : UInt8 := 64
def tag65Packet : UInt8 := 65
def tag66Packet : UInt8 := 66
def tag67Packet : UInt8 := 67
def packetStatusGood : UInt8 := 0
/-- `ECRYPTFS_PACKET_STATUS_BAD`, which is `-1`, as an `unsigned char`. -/
def packetStatusBad : UInt8 := 255
def maxEncryptedKeyBytes : ℕ := 512

/-- A registered key module, by the alias it is found under. -/
structure KeyMod where
  modAlias : CStr
  deriving DecidableEq

/-- What the daemon uses of a token of the keyring. -/
structure AuthTok where
  keyModAlias : CStr
  data : List UInt8

/-- The outcome of the two calls of a key module's operation: the code and the size reported without
a buffer, then the code, the size and the content of the buffer of the second call. -/
structure KeyCalls where
  sizeRc : ℤ
  size : ℕ
  rc : ℤ
  outSize : ℕ
  out : Bytes

/-- What the keyring, the key modules and the allocator answer during one request: whether a key of
the given description is found, the token read for it, the calls of the modules for a key and a
blob, and the content of fresh memory. -/
structure KeyEnv where
  requestKey : CStr → Bool
  readAlloc : CStr → Option AuthTok
  encrypt : KeyMod → List UInt8 → List UInt8 → KeyCalls
  decrypt : KeyMod → List UInt8 → List UInt8 → KeyCalls
  fresh : Bytes

/-- What the pointer to the output key refers to. -/
inductive KeyBuffer where
  | null
  | live
  | released
  deriving DecidableEq

/-- The return value of `key_mod_encrypt` or `key_mod_decrypt`, with its output key. -/
structure KeyOut where
  rc : ℤ
  buffer : KeyBuffer
  key : List UInt8

/-- `ecryptfs_find_key_mod`: the first module whose alias is a prefix of the one given. -/
def findKeyMod (ctx : List KeyMod) (keyModAlias : CStr) : Option KeyMod :=
  ctx.find? fun m => m.modAlias.isPrefixOf keyModAlias

/-- The common body of `key_mod_encrypt` and `key_mod_decrypt`.  The result is `none` when the alias
of a token is looked at that was never read. -/
def keyModCall (limit : ℕ) (calls : KeyMod → List UInt8 → KeyCalls) (ctx : List KeyMod)
    (authTok : Option AuthTok) : Option KeyOut :=
  match ctx, authTok with
  | [], _ => some ⟨-einval, .null, []⟩
  | _ :: _, none => none
  | ctx, some tok =>
    match findKeyMod ctx tok.keyModAlias with
    | none => some ⟨-einval, .null, []⟩
    | some m =>
      let c := calls m tok.data
      if c.sizeRc ≠ 0 then some ⟨c.sizeRc, .null, []⟩
      else if c.size = 0 then some ⟨-einval, .null, []⟩
      else if c.rc ≠ 0 then some ⟨c.rc, .live, []⟩
      -- the caller's pointer keeps the address of the buffer that is freed here
      else if limit < c.outSize then some ⟨-einval, .released, []⟩
      else some ⟨0, .live, slice c.out 0 c.outSize⟩

def keyModEncrypt (env : KeyEnv) (ctx : List KeyMod) (authTok : Option AuthTok)
    (decryptedKey : List UInt8) : Option KeyOut :=
  keyModCall maxEncryptedKeyBytes (env.encrypt · decryptedKey ·) ctx authTok

def keyModDecrypt (env : KeyEnv) (ctx : List KeyMod) (authTok : Option AuthTok)
    (encryptedKey : List UInt8) : Option KeyOut :=
  keyModCall 64 (env.decrypt · encryptedKey ·) ctx authTok

/-- The data of the reply built by `write_failure_packet`. -/
def writeFailurePacket (tag : UInt8) : List UInt8 := [tag, packetStatusBad]

/-- The data of the reply built by `write_tag_65_packet`. -/
def writeTag65Packet (key : List UInt8) : Except ℤ (List UInt8) :=
  (writePacketLength key.length).map fun len => tag65Packet :: packetStatusGood :: len ++ key

/-- The data of the reply built by `write_tag_67_packet`: `data_len` counts four bytes besides the
key, whether or not the length takes two of them. -/
def writeTag67Packet (fresh : Bytes) (key : List UInt8) : Except ℤ (List UInt8) :=
  (writePacketLength key.length).map fun len =>
    slice (holding (tag67Packet :: packetStatusGood :: len ++ key) fresh) 0 (key.length + 4)

/-- What `parse_packet` takes out of the message, and the offsets of the message it reads. -/
structure Decoded where
  packetType : UInt8
  reads : List ℕ
  fields : Except ℤ (List UInt8 × List UInt8)

/-- The decoding part of `parse_packet`: packet type, signature and key. -/
def decodePacket (emsg : Bytes) : Decoded :=
  let data : Bytes := fun i => emsg (messageHeaderSize + i)
  let packetType := data 0
  let reads := offsets messageHeaderSize 1 ++
    offsets (messageHeaderSize + 1) (packetLengthReads fun k => data (1 + k))
  match parsePacketLength fun k => data (1 + k) with
  | .error rc => ⟨packetType, reads, .error rc⟩
  | .ok p =>
    let i := 1 + p.lengthSize
    let signature := slice data i p.size
    let j := i + p.size
    let reads := reads ++ offsets (messageHeaderSize + i) p.size ++
      offsets (messageHeaderSize + j) (packetLengthReads fun k => data (j + k))
    match parsePacketLength fun k => data (j + k) with
    | .error rc => ⟨packetType, reads, .error rc⟩
    | .ok q =>
      let key := slice data (j + q.lengthSize) q.size
      ⟨packetType, reads ++ offsets (messageHeaderSize + j + q.lengthSize) q.size,
        .ok (signature, key)⟩

/-- The outcome of `parse_packet`: its return value, the data of the reply, and what `key_out`
refers to when it is freed at the end. -/
structure Parsed where
  rc : ℤ
  reply : Option (List UInt8)
  keyOut : KeyBuffer

/-- The label `write_failure`. -/
def writeFailure (packetType : UInt8) (keyOut : KeyBuffer) : Parsed :=
  ⟨0, some (writeFailurePacket (if packetType = tag66Packet then tag67Packet else tag65Packet)),
    keyOut⟩

/-- The end of the cases for types 64 and 66: the output of the key module goes into a packet. -/
def replyOutput (packetType : UInt8) (write : List UInt8 → Except ℤ (List UInt8)) (out : KeyOut) :
    Parsed :=
  if out.rc ≠ 0 then writeFailure packetType out.buffer
  else match write out.key with
    | .error _ => writeFailure packetType out.buffer
    | .ok data => ⟨0, some data, out.buffer⟩

/-- `parse_packet`; the result is `none` when a token is used that was never read. -/
def parsePacket (ctx : List KeyMod) (env : KeyEnv) (emsg : Bytes) : Option Parsed :=
  let d := decodePacket emsg
  match d.fields with
  | .error _ => some (writeFailure d.packetType .null)
  | .ok (signature, key) =>
    -- `request_key` sees the signature up to its first NUL
    let description : CStr := signature.takeWhile (· ≠ 0)
    if env.requestKey description = false then some (writeFailure d.packetType .null)
    else
      let authTok := env.readAlloc description
      if d.packetType = tag64Packet then
        (keyModDecrypt env ctx authTok key).map (replyOutput d.packetType writeTag65Packet)
      else if d.packetType = tag66Packet then
        (keyModEncrypt env ctx authTok key).map
          (replyOutput d.packetType (writeTag67Packet env.fresh))
      -- the token is wiped before the return, whatever the type
      else authTok.map fun _ => ⟨-einval, none, .null⟩

/-! ## What is read -/

/-- The declared lengths of the message in a memory lie below a limit: the type byte and the first
length field, the signature and the second length field, and the key. -/
def FitsIn (m : Bytes) (limit : ℕ) : Prop :=
  9 + packetLengthReads (fun k => m (9 + k)) ≤ limit ∧
    ∀ p, parsePacketLength (fun k => m (9 + k)) = .ok p →
      9 + p.lengthSize + p.size +
          packetLengthReads (fun k => m (9 + p.lengthSize + p.size + k)) ≤ limit ∧
        ∀ q, parsePacketLength (fun k => m (9 + p.lengthSize + p.size + k)) = .ok q →
          9 + p.lengthSize + p.size + q.lengthSize + q.size ≤ limit

/-- The declared lengths of a message lie inside it. -/
def DeclaredFits (raw : List UInt8) : Prop := FitsIn (holding raw fun _ => 0) raw.length

theorem packetLengthReads_pos (data : Bytes) : 1 ≤ packetLengthReads data := by
  unfold packetLengthReads
  split_ifs <;> omega

/-- A length field below the limit only depends on the memory below the limit. -/
theorem packetLength_congr {m m' : Bytes} {i limit : ℕ} (same : ∀ k < limit, m k = m' k)
    (inside : i + packetLengthReads (fun k => m (i + k)) ≤ limit) :
    packetLengthReads (fun k => m (i + k)) = packetLengthReads (fun k => m' (i + k)) ∧
      parsePacketLength (fun k => m (i + k)) = parsePacketLength fun k => m' (i + k) := by
  have pos := packetLengthReads_pos fun k => m (i + k)
  have first : m (i + 0) = m' (i + 0) := same _ (by omega)
  constructor
  · simp only [packetLengthReads, first]
  · exact parsePacketLength_congr first fun two => same _ (by omega)

theorem FitsIn.congr {m m' : Bytes} {limit : ℕ} (same : ∀ k < limit, m k = m' k)
    (fits : FitsIn m limit) : FitsIn m' limit := by
  obtain ⟨first, rest⟩ := fits
  have e := packetLength_congr same first
  refine ⟨e.1 ▸ first, fun p parsed => ?_⟩
  rw [← e.2] at parsed
  obtain ⟨second, rest⟩ := rest p parsed
  have e := packetLength_congr same second
  refine ⟨e.1 ▸ second, fun q parsed => ?_⟩
  rw [← e.2] at parsed
  exact rest q parsed

/-- Whether the declared lengths fit does not depend on the memory beyond the message. -/
theorem declaredFits_iff (raw : List UInt8) (heap : Bytes) :
    DeclaredFits raw ↔ FitsIn (holding raw heap) raw.length := by
  have same : ∀ heap heap' : Bytes, ∀ k < raw.length, holding raw heap k = holding raw heap' k := by
    intro heap heap' k inside
    rw [holding_of_lt inside, holding_of_lt inside]
  exact ⟨FitsIn.congr (same _ _), FitsIn.congr (same _ _)⟩

/-- The offsets read are below a limit exactly when the declared lengths are. -/
theorem reads_lt_iff (m : Bytes) (limit : ℕ) :
    (∀ k ∈ (decodePacket m).reads, k < limit) ↔ FitsIn m limit := by
  unfold decodePacket FitsIn messageHeaderSize
  simp only [← Nat.add_assoc, Nat.reduceAdd]
  have pos := packetLengthReads_pos fun k => m (9 + k)
  rcases first : parsePacketLength fun k => m (9 + k) with rc | p
  · simp only [List.mem_append, or_imp, forall_and, offsets_lt_iff pos,
      offsets_lt_iff (le_refl 1), reduceCtorEq, false_imp_iff, forall_true_iff, and_true]
    omega
  · have size := (parsePacketLength_ok first).1
    have pos' := packetLengthReads_pos fun k => m (9 + p.lengthSize + p.size + k)
    simp only [Except.ok.injEq, forall_eq']
    rcases second : parsePacketLength fun k => m (9 + p.lengthSize + p.size + k) with rc | q
    · simp only [List.mem_append, or_imp, forall_and, offsets_lt_iff pos, offsets_lt_iff pos',
        offsets_lt_iff (le_refl 1), reduceCtorEq, false_imp_iff, forall_true_iff, and_true]
      constructor
      · rintro ⟨⟨⟨-, h⟩, -⟩, h'⟩
        exact ⟨h, h'⟩
      · rintro ⟨h, h'⟩
        exact ⟨⟨⟨by omega, h⟩, fun k hk => by rw [mem_offsets] at hk; omega⟩, h'⟩
    · have size' := (parsePacketLength_ok second).1
      simp only [List.mem_append, or_imp, forall_and, offsets_lt_iff pos, offsets_lt_iff pos',
        offsets_lt_iff (le_refl 1), Except.ok.injEq, forall_eq']
      constructor
      · rintro ⟨⟨⟨⟨-, h⟩, -⟩, h'⟩, key⟩
        refine ⟨h, h', ?_⟩
        rcases Nat.eq_zero_or_pos q.size with none_ | some_
        · omega
        · have := key (9 + p.lengthSize + p.size + q.lengthSize + q.size - 1)
            (mem_offsets.mpr (by omega))
          omega
      · rintro ⟨h, h', key⟩
        refine ⟨⟨⟨⟨by omega, h⟩, fun k hk => ?_⟩, h'⟩, fun k hk => ?_⟩
        · rw [mem_offsets] at hk
          omega
        · rw [mem_offsets] at hk
          omega

/-- Parsing a request reads nothing but the message, and a message whose declared lengths exceed it
is answered by a failure. -/
def ParsesInside (ctx : List KeyMod) (raw : List UInt8) : Prop :=
  ∀ (heap : Bytes) (env : KeyEnv),
    (∀ k ∈ (decodePacket (holding raw heap)).reads, k < raw.length) ∧
      (¬ DeclaredFits raw → ∃ p tag, parsePacket ctx env (holding raw heap) = some p ∧ p.rc = 0 ∧
        p.reply = some (writeFailurePacket tag))

/-- An environment without any key. -/
def KeyEnv.empty : KeyEnv where
  requestKey _ := false
  readAlloc _ := none
  encrypt _ _ _ := ⟨-einval, 0, 0, 0, fun _ => 0⟩
  decrypt _ _ _ := ⟨-einval, 0, 0, 0, fun _ => 0⟩
  fresh _ := 0

/-- **When parsing stays inside the message.**  For every request that is received, parsing reads
only the message exactly when the declared lengths lie inside it: nothing is checked. -/
theorem parsesInside_iff (host : Words.ByteOrder) (ctx : List KeyMod) (b : List UInt8)
    (stale : Bytes) (r : Received) :
    recvMiscdev host (some b) stale = .ok r → r.msgType = msgRequest →
      (ParsesInside ctx r.raw ↔ DeclaredFits r.raw) := by
  intro _ _
  constructor
  · intro inside
    exact (reads_lt_iff _ _).mp (inside (fun _ => 0) .empty).1
  · intro fits heap env
    refine ⟨(reads_lt_iff _ _).mpr ((declaredFits_iff r.raw heap).mp fits), fun bad => ?_⟩
    exact absurd fits bad

/-- The lengths of the signature and of the key fit. -/
theorem declaredFits_key : DeclaredFits keyRequest := by
  refine ⟨by decide, fun p first => ?_⟩
  obtain rfl := Except.ok.inj ((parsePacketLength_one (by decide)).symm.trans first)
  refine ⟨by decide, fun q second => ?_⟩
  obtain rfl := Except.ok.inj ((parsePacketLength_one (by decide)).symm.trans second)
  decide

theorem parsesInside_key : ParsesInside [] keyRequest := by
  have received : recvMiscdev .little (some ([102, 0, 0, 0, 7, 30] ++ keyRequest)) (fun _ => 0) =
      .ok ⟨msgRequest, 7, keyRequest⟩ := by decide
  exact (parsesInside_iff .little [] _ _ _ received rfl).mpr declaredFits_key

/-- A request without a message makes the parser read behind it. -/
theorem parsePacket_reads_outside :
    ∃ r, recvMiscdev .little (some [102, 0, 0, 0, 7, 0]) (fun _ => 0) = .ok r ∧
      r.msgType = msgRequest ∧ ¬ ParsesInside [] r.raw := by
  refine ⟨⟨msgRequest, 7, []⟩, by decide, rfl, fun inside => ?_⟩
  have := (inside (fun _ => 0) .empty).1 8 (by decide)
  exact absurd this (by decide)

/-! ## What is replied -/

/-- The tag of the reply to a packet of the given type. -/
def replyTag (packetType : UInt8) : UInt8 :=
  if packetType = tag66Packet then tag67Packet else tag65Packet

/-- What a request leads to: a reply with the tag that belongs to the type of the packet, or, for a
type that is neither 64 nor 66, possibly an error and no reply. -/
def Replies (packetType : UInt8) (p : Parsed) : Prop :=
  (p.rc = 0 ∧ ∃ data, p.reply = some data ∧ data.head? = some (replyTag packetType) ∧
      data.length ≤ maxEncryptedKeyBytes + 4) ∨
    (p.rc ≠ 0 ∧ packetType ≠ tag64Packet ∧ packetType ≠ tag66Packet)

/-- With a token, an operation of a key module returns, and its output respects the limit. -/
theorem keyModCall_some (limit : ℕ) (calls : KeyMod → List UInt8 → KeyCalls) (ctx : List KeyMod)
    (tok : AuthTok) : ∃ out, keyModCall limit calls ctx (some tok) = some out ∧
      (out.rc = 0 → out.key.length ≤ limit) := by
  have einval_ne : (-einval : ℤ) ≠ 0 := by decide
  cases ctx with
  | nil => exact ⟨_, rfl, fun h => absurd h einval_ne⟩
  | cons m ctx =>
    unfold keyModCall
    simp only
    split
    · exact ⟨_, rfl, fun h => absurd h einval_ne⟩
    · split_ifs with size zero rc over_
      · exact ⟨_, rfl, fun h => absurd h size⟩
      · exact ⟨_, rfl, fun h => absurd h einval_ne⟩
      · exact ⟨_, rfl, fun h => absurd h rc⟩
      · exact ⟨_, rfl, fun h => absurd h einval_ne⟩
      · refine ⟨_, rfl, fun _ => ?_⟩
        rw [length_slice]
        exact not_lt.mp over_

theorem replies_writeFailure (packetType : UInt8) (keyOut : KeyBuffer) :
    Replies packetType (writeFailure packetType keyOut) :=
  .inl ⟨rfl, _, rfl, rfl, by simp [writeFailurePacket, maxEncryptedKeyBytes]⟩

/-- The length of a packet length. -/
theorem writePacketLength_some {n : ℕ} (small : n < 65536) :
    ∃ len, writePacketLength n = .ok len ∧ 1 ≤ len.length ∧ len.length ≤ 2 := by
  by_cases one : n < 192
  · exact ⟨_, writePacketLength_one one, le_rfl, one_le_two⟩
  · exact ⟨_, writePacketLength_two (by omega) small, one_le_two, le_rfl⟩

theorem writeTag65Packet_ok {key : List UInt8} (small : key.length ≤ maxEncryptedKeyBytes) :
    ∃ data, writeTag65Packet key = .ok data ∧ data.head? = some tag65Packet ∧
      data.length ≤ maxEncryptedKeyBytes + 4 := by
  unfold maxEncryptedKeyBytes at *
  obtain ⟨len, written, -, two⟩ := writePacketLength_some (show key.length < 65536 by omega)
  refine ⟨_, by rw [writeTag65Packet, written]; rfl, rfl, ?_⟩
  simp only [List.length_append, List.length_cons]
  omega

theorem writeTag67Packet_ok (fresh : Bytes) {key : List UInt8}
    (small : key.length ≤ maxEncryptedKeyBytes) :
    ∃ data, writeTag67Packet fresh key = .ok data ∧ data.head? = some tag67Packet ∧
      data.length ≤ maxEncryptedKeyBytes + 4 := by
  unfold maxEncryptedKeyBytes at *
  obtain ⟨len, written, -, -⟩ := writePacketLength_some (show key.length < 65536 by omega)
  refine ⟨_, by rw [writeTag67Packet, written]; rfl, ?_, ?_⟩
  · show (slice _ 0 (key.length + 4)).head? = some tag67Packet
    rw [show key.length + 4 = 1 + (key.length + 3) by omega, slice_add, slice_one]
    rfl
  · rw [length_slice]
    omega

theorem replies_output {packetType : UInt8} {write : List UInt8 → Except ℤ (List UInt8)}
    {out : KeyOut} (ok : out.rc = 0 → ∃ data, write out.key = .ok data ∧
      data.head? = some (replyTag packetType) ∧ data.length ≤ maxEncryptedKeyBytes + 4) :
    Replies packetType (replyOutput packetType write out) := by
  unfold replyOutput
  split_ifs with failed
  · exact replies_writeFailure _ _
  · obtain ⟨data, written, head, size⟩ := ok (not_not.mp failed)
    rw [written]
    exact .inl ⟨rfl, data, rfl, head, size⟩

/-- Every request with a token for the key that is found is answered as its type says. -/
theorem parsePacket_replies (ctx : List KeyMod) {env : KeyEnv} (emsg : Bytes)
    (tokens : ∀ d, env.requestKey d = true → (env.readAlloc d).isSome) :
    ∃ p, parsePacket ctx env emsg = some p ∧ Replies (decodePacket emsg).packetType p := by
  unfold parsePacket
  rcases fields : (decodePacket emsg).fields with rc | ⟨signature, key⟩
  · simp only [fields]
    exact ⟨_, rfl, replies_writeFailure _ _⟩
  · simp only [fields]
    by_cases missing : env.requestKey (signature.takeWhile (· ≠ 0)) = false
    · rw [if_pos missing]
      exact ⟨_, rfl, replies_writeFailure _ _⟩
    · rw [if_neg missing]
      obtain ⟨tok, read⟩ := Option.isSome_iff_exists.mp (tokens _ (Bool.of_not_eq_false missing))
      rw [read]
      split_ifs with is64 is66
      · obtain ⟨out, called, small⟩ := keyModCall_some 64 (env.decrypt · key ·) ctx tok
        rw [keyModDecrypt, called]
        refine ⟨_, rfl, replies_output fun done => ?_⟩
        obtain ⟨data, written, head, size⟩ := writeTag65Packet_ok
          ((small done).trans (show 64 ≤ maxEncryptedKeyBytes by decide))
        exact ⟨data, written, by rw [head, is64]; rfl, size⟩
      · obtain ⟨out, called, small⟩ :=
          keyModCall_some maxEncryptedKeyBytes (env.encrypt · key ·) ctx tok
        rw [keyModEncrypt, called]
        refine ⟨_, rfl, replies_output fun done => ?_⟩
        obtain ⟨data, written, head, size⟩ := writeTag67Packet_ok env.fresh (small done)
        exact ⟨data, written, by rw [head, is66]; rfl, size⟩
      · exact ⟨_, rfl, .inr ⟨show (-einval : ℤ) ≠ 0 by decide, is64, is66⟩⟩

end Ecryptfs
