import Ecryptfs.Messaging.Packets

/-!
# Replies to the kernel

A request of type 64 is answered by a packet of type 65 with the decrypted key, a request of type 66
by a packet of type 67 with the encrypted key, and both by a packet of two bytes when something goes
wrong.  Two questions are settled here: what a success packet says about the key (`reply_exact_iff`),
and which outcomes of the calls behind a request lead to which packet (`answers_iff`).

The two writers differ in the length they report: that of type 67 always counts a packet length of
two bytes.
-/

namespace Ecryptfs

open Memory

/-- The two kinds of answer, by the type of the success packet. -/
inductive ReplyKind where
  | tag65
  | tag67
  deriving DecidableEq

namespace ReplyKind

def tag : ReplyKind → UInt8
  | tag65 => tag65Packet
  | tag67 => tag67Packet

/-- The type of the requests that are answered so. -/
def requestType : ReplyKind → UInt8
  | tag65 => tag64Packet
  | tag67 => tag66Packet

/-- The largest output of a key module that is passed on. -/
def limit : ReplyKind → ℕ
  | tag65 => 64
  | tag67 => maxEncryptedKeyBytes

/-- The writer of the success packet. -/
def write (fresh : Bytes) : ReplyKind → List UInt8 → Except ℤ (List UInt8)
  | tag65 => writeTag65Packet
  | tag67 => writeTag67Packet fresh

/-- The two calls of the key module. -/
def calls (env : KeyEnv) (m : KeyMod) (key data : List UInt8) : ReplyKind → KeyCalls
  | tag65 => env.decrypt m key data
  | tag67 => env.encrypt m key data

theorem limit_le (kind : ReplyKind) : kind.limit ≤ maxEncryptedKeyBytes := by
  cases kind <;> decide

end ReplyKind

/-! ## Success packets -/

/-- The data of a packet is its tag, the good status, a packet length that is parsed as the size of the
key whatever follows, and the key. -/
def DecodesTo (tag : UInt8) (data key : List UInt8) : Prop :=
  ∃ len, data = tag :: packetStatusGood :: (len ++ key) ∧
    ∀ beyond, parsePacketLength (holding (len ++ key) beyond) = .ok ⟨key.length, len.length⟩

/-- The bytes of a packet that are written before its length is reported. -/
theorem decodesTo_written (tag : UInt8) {key len : List UInt8} (small : key.length < 8384)
    (written : writePacketLength key.length = .ok len) :
    DecodesTo tag (tag :: packetStatusGood :: (len ++ key)) key := by
  refine ⟨len, rfl, fun beyond => ?_⟩
  rw [holding_append]
  exact parse_written _ written small

/-- A packet has as many bytes as its parts: the length of a small key takes one byte. -/
theorem DecodesTo.length {tag : UInt8} {data key : List UInt8} (decodes : DecodesTo tag data key)
    (small : key.length < 192) : data.length = key.length + 3 := by
  obtain ⟨len, rfl, parsed⟩ := decodes
  obtain ⟨lengthSize, -⟩ := parsePacketLength_ok (parsed fun _ => 0)
  have encoded := write_parse_packetLength (parsed fun _ => 0)
  rw [writePacketLength_one small] at encoded
  have one := congrArg List.length (Except.ok.inj encoded)
  rw [length_slice] at one
  simp only [List.length_cons, List.length_append, List.length_nil] at one ⊢
  omega

/-- The writer of type 67 reports four bytes besides the key. -/
theorem length_writeTag67Packet {fresh : Bytes} {key data : List UInt8}
    (written : writeTag67Packet fresh key = .ok data) : data.length = key.length + 4 := by
  unfold writeTag67Packet at written
  rcases length : writePacketLength key.length with rc | len
  · rw [length] at written
    cases written
  · rw [length] at written
    obtain rfl := Except.ok.inj written
    exact length_slice _ _ _

/-- With a packet length of two bytes the report of the writer of type 67 is right. -/
theorem writeTag67Packet_two {key len : List UInt8} (fresh : Bytes)
    (written : writePacketLength key.length = .ok len) (two : len.length = 2) :
    writeTag67Packet fresh key = .ok (tag67Packet :: packetStatusGood :: (len ++ key)) := by
  have whole : key.length + 4 = (tag67Packet :: packetStatusGood :: (len ++ key)).length := by
    simp only [List.length_cons, List.length_append, two]
    omega
  rw [writeTag67Packet, written]
  refine congrArg Except.ok ?_
  rw [whole]
  exact slice_holding _ _

/-- **When a success packet is exact.**  The packet written for an output of a key module decodes to
that output, and reports as many bytes as were written, unless it is a packet of type 67 for an
output of less than 192 bytes. -/
theorem reply_exact_iff (kind : ReplyKind) (key : List UInt8) (some_ : 1 ≤ key.length)
    (accepted : key.length ≤ kind.limit) :
    (∀ fresh, ∃ data, kind.write fresh key = .ok data ∧ DecodesTo kind.tag data key) ↔
      (kind = .tag67 → 192 ≤ key.length) := by
  have limit : key.length ≤ 512 := accepted.trans kind.limit_le
  obtain ⟨len, written, -, -⟩ := writePacketLength_some (show key.length < 65536 by omega)
  cases kind with
  | tag65 =>
    refine iff_of_true (fun fresh => ?_) fun isTag67 => nomatch isTag67
    have wrote : ReplyKind.tag65.write fresh key =
        .ok (tag65Packet :: packetStatusGood :: (len ++ key)) := by
      show writeTag65Packet key = _
      rw [writeTag65Packet, written]
      rfl
    exact ⟨_, wrote, decodesTo_written tag65Packet (by omega) written⟩
  | tag67 =>
    constructor
    · intro exact_ _
      obtain ⟨data, wrote, decodes⟩ := exact_ fun _ => 0
      have reported := length_writeTag67Packet wrote
      by_contra small
      have counted := decodes.length (not_le.mp small)
      omega
    · intro large fresh
      have two : len.length = 2 := by
        rw [writePacketLength_two (large rfl) (by omega)] at written
        rw [← Except.ok.inj written]
        rfl
      exact ⟨_, writeTag67Packet_two fresh written two, decodesTo_written tag67Packet (by omega) written⟩

/-- A key of 256 bytes, as an RSA module encrypts it. -/
theorem reply_exact_rsa :
    (List.replicate 256 (7 : UInt8)).length ≤ ReplyKind.tag67.limit ∧
      ∀ fresh, ∃ data, ReplyKind.tag67.write fresh (List.replicate 256 7) = .ok data ∧
        DecodesTo tag67Packet data (List.replicate 256 7) := by
  have size : (List.replicate 256 (7 : UInt8)).length = 256 := List.length_replicate
  have accepted : (List.replicate 256 (7 : UInt8)).length ≤ ReplyKind.tag67.limit := by
    rw [size]
    decide
  refine ⟨accepted, (reply_exact_iff .tag67 (List.replicate 256 7) ?_ accepted).mpr fun _ => ?_⟩
  · rw [size]
    decide
  · rw [size]
    decide

/-- An encrypted key of one byte is followed by a byte of fresh memory. -/
theorem reply_sends_fresh :
    ReplyKind.tag67.write (fun _ => 99) [7] = .ok [67, 0, 1, 7, 99] ∧
      ¬ ∀ (kind : ReplyKind) (key : List UInt8), 1 ≤ key.length → key.length ≤ kind.limit →
        ∀ fresh, ∃ data, kind.write fresh key = .ok data ∧ DecodesTo kind.tag data key := by
  have wrote : ReplyKind.tag67.write (fun _ => 99) [7] = .ok [67, 0, 1, 7, 99] := rfl
  refine ⟨wrote, fun exact_ => ?_⟩
  obtain ⟨data, wrote', decodes⟩ := exact_ .tag67 [7] le_rfl (by decide) fun _ => 99
  obtain rfl := Except.ok.inj (wrote.symm.trans wrote')
  exact absurd (decodes.length (by decide)) (by decide)

/-! ## The outcomes behind a request -/

/-- Both calls of a key module succeed, the first with a size. -/
def KeyCalls.Succeed (c : KeyCalls) : Prop := c.sizeRc = 0 ∧ c.size ≠ 0 ∧ c.rc = 0

instance (c : KeyCalls) : Decidable c.Succeed := by
  unfold KeyCalls.Succeed
  infer_instance

/-- What `key_mod_encrypt` or `key_mod_decrypt` makes of the calls of a key module. -/
def KeyCalls.result (limit : ℕ) (c : KeyCalls) : KeyOut :=
  if c.sizeRc ≠ 0 then ⟨c.sizeRc, .null, []⟩
  else if c.size = 0 then ⟨-einval, .null, []⟩
  else if c.rc ≠ 0 then ⟨c.rc, .live, []⟩
  else if limit < c.outSize then ⟨-einval, .released, []⟩
  else ⟨0, .live, slice c.out 0 c.outSize⟩

section

variable (kind : ReplyKind) (ctx : List KeyMod) (env : KeyEnv) (emsg : Bytes)

/-- The calls of the key module, for a request whose key is found, whose token is read and names a
registered module. -/
def keyModCalls : Option KeyCalls :=
  match (decodePacket emsg).fields with
  | .error _ => none
  | .ok (signature, key) =>
    let description : CStr := signature.takeWhile (· ≠ 0)
    if env.requestKey description = false then none
    else (env.readAlloc description).bind fun tok =>
      (findKeyMod ctx tok.keyModAlias).map fun m => kind.calls env m key tok.data

/-- The output of the key module, if everything succeeds with an output that is neither empty nor
above the limit. -/
def requestOutput : Option (List UInt8) :=
  ((keyModCalls kind ctx env emsg).filter fun c =>
    decide (c.Succeed ∧ c.outSize ≠ 0 ∧ c.outSize ≤ kind.limit)).map fun c => slice c.out 0 c.outSize

/-- A request is answered by the success packet if everything behind it succeeds and by the failure
packet of its type otherwise, and no token is used that was not read. -/
def AnswersRight : Prop :=
  ∃ p, parsePacket ctx env emsg = some p ∧ p.rc = 0 ∧
    match requestOutput kind ctx env emsg with
    | some out => ∃ data, kind.write env.fresh out = .ok data ∧ p.reply = some data
    | none => p.reply = some (writeFailurePacket kind.tag)

/-- The buffer of the output key is not freed a second time at the end. -/
def ReleasesOnce : Prop := ∀ p, parsePacket ctx env emsg = some p → p.keyOut ≠ .released

/-- The token of a key that is found is read, or there is no module whose alias it is compared with. -/
def TokenRead : Prop :=
  ∀ signature key, (decodePacket emsg).fields = .ok (signature, key) →
    env.requestKey (signature.takeWhile (· ≠ 0)) = true →
      ctx = [] ∨ (env.readAlloc (signature.takeWhile (· ≠ 0))).isSome

/-- A second call that succeeds does not report an empty output. -/
def OutputNonempty : Prop :=
  ∀ c, keyModCalls kind ctx env emsg = some c → c.Succeed → c.outSize ≠ 0

/-- A second call that succeeds does not report an output above the limit. -/
def OutputWithin : Prop :=
  ∀ c, keyModCalls kind ctx env emsg = some c → c.Succeed → c.outSize ≤ kind.limit

variable {kind ctx env emsg}

theorem keyModCall_eq (limit : ℕ) (calls : KeyMod → List UInt8 → KeyCalls) (ctx : List KeyMod)
    (tok : AuthTok) : keyModCall limit calls ctx (some tok) =
      some (match findKeyMod ctx tok.keyModAlias with
        | none => ⟨-einval, .null, []⟩
        | some m => (calls m tok.data).result limit) := by
  cases ctx with
  | nil => rfl
  | cons m ctx =>
    unfold keyModCall
    rcases found : findKeyMod (m :: ctx) tok.keyModAlias with _ | m'
    · simp only [found]
    · simp only [found, KeyCalls.result]
      split_ifs <;> rfl

/-- The cases for types 64 and 66 are one. -/
theorem parsePacket_kind (type : (decodePacket emsg).packetType = kind.requestType) :
    parsePacket ctx env emsg = match (decodePacket emsg).fields with
      | .error _ => some (writeFailure kind.requestType .null)
      | .ok (signature, key) =>
        if env.requestKey (signature.takeWhile (· ≠ 0)) = false then
          some (writeFailure kind.requestType .null)
        else (keyModCall kind.limit (kind.calls env · key ·) ctx
            (env.readAlloc (signature.takeWhile (· ≠ 0)))).map
          (replyOutput kind.requestType (kind.write env.fresh)) := by
  simp only [parsePacket, type]
  cases kind <;> rfl

theorem writeFailure_kind (keyOut : KeyBuffer) : writeFailure kind.requestType keyOut =
    ⟨0, some (writeFailurePacket kind.tag), keyOut⟩ := by
  cases kind <;> rfl

/-- A token that was not read is used for the search of the module. -/
theorem parsePacket_unread (type : (decodePacket emsg).packetType = kind.requestType)
    (unread : ¬ TokenRead ctx env emsg) : parsePacket ctx env emsg = none := by
  unfold TokenRead at unread
  push Not at unread
  obtain ⟨signature, key, fields, found, modules, unread⟩ := unread
  rw [parsePacket_kind type, fields]
  simp only
  rw [if_neg (by rw [found]; decide), Option.not_isSome_iff_eq_none.mp unread]
  cases ctx with
  | nil => exact absurd rfl modules
  | cons m ctx => rfl

/-- A request that does not get to the calls of a module is answered by the failure packet. -/
theorem parsePacket_noCalls (type : (decodePacket emsg).packetType = kind.requestType)
    (read : TokenRead ctx env emsg) (noCalls : keyModCalls kind ctx env emsg = none) :
    parsePacket ctx env emsg = some ⟨0, some (writeFailurePacket kind.tag), .null⟩ := by
  rw [parsePacket_kind type]
  unfold keyModCalls at noCalls
  rcases fields : (decodePacket emsg).fields with rc | ⟨signature, key⟩
  · exact congrArg some (writeFailure_kind .null)
  · rw [fields] at noCalls
    simp only at noCalls ⊢
    by_cases missing : env.requestKey (signature.takeWhile (· ≠ 0)) = false
    · rw [if_pos missing, writeFailure_kind]
    · rw [if_neg missing] at noCalls ⊢
      have failed : replyOutput kind.requestType (kind.write env.fresh) ⟨-einval, .null, []⟩ =
          ⟨0, some (writeFailurePacket kind.tag), .null⟩ := writeFailure_kind .null
      rcases token : env.readAlloc (signature.takeWhile (· ≠ 0)) with _ | tok
      · have none_ : ctx = [] := by
          have := read signature key fields (Bool.of_not_eq_false missing)
          rw [token] at this
          simpa using this
        subst none_
        exact congrArg some failed
      · rw [token] at noCalls
        have unknown : findKeyMod ctx tok.keyModAlias = none := by simpa using noCalls
        rw [keyModCall_eq, unknown]
        exact congrArg some failed

/-- A request that gets to the calls of a module is answered by what comes of them. -/
theorem parsePacket_calls (type : (decodePacket emsg).packetType = kind.requestType) {c : KeyCalls}
    (called : keyModCalls kind ctx env emsg = some c) : parsePacket ctx env emsg =
      some (replyOutput kind.requestType (kind.write env.fresh) (c.result kind.limit)) := by
  rw [parsePacket_kind type]
  unfold keyModCalls at called
  rcases fields : (decodePacket emsg).fields with rc | ⟨signature, key⟩
  · rw [fields] at called
    cases called
  · rw [fields] at called
    simp only at called ⊢
    by_cases missing : env.requestKey (signature.takeWhile (· ≠ 0)) = false
    · rw [if_pos missing] at called
      cases called
    · rw [if_neg missing] at called ⊢
      obtain ⟨tok, token, called⟩ := Option.bind_eq_some_iff.mp called
      obtain ⟨m, found, rfl⟩ := Option.map_eq_some_iff.mp called
      rw [token, keyModCall_eq, found]
      rfl

/-- Calls that do not succeed lead to an error and leave no freed buffer behind. -/
theorem result_failed {limit : ℕ} {c : KeyCalls} (failed : ¬ c.Succeed) :
    (c.result limit).rc ≠ 0 ∧ (c.result limit).buffer ≠ .released := by
  have einval_ne : (-einval : ℤ) ≠ 0 := by decide
  unfold KeyCalls.result
  split_ifs with size zero rc over_
  · exact ⟨size, nofun⟩
  · exact ⟨einval_ne, nofun⟩
  · exact ⟨rc, nofun⟩
  all_goals exact absurd ⟨not_not.mp size, zero, not_not.mp rc⟩ failed

theorem result_within {limit : ℕ} {c : KeyCalls} (succeed : c.Succeed) (within : c.outSize ≤ limit) :
    c.result limit = ⟨0, .live, slice c.out 0 c.outSize⟩ := by
  obtain ⟨size, some_, rc⟩ := succeed
  rw [KeyCalls.result, if_neg (not_not.mpr size), if_neg some_, if_neg (not_not.mpr rc),
    if_neg (not_lt.mpr within)]

theorem result_over {limit : ℕ} {c : KeyCalls} (succeed : c.Succeed) (over_ : limit < c.outSize) :
    c.result limit = ⟨-einval, .released, []⟩ := by
  obtain ⟨size, some_, rc⟩ := succeed
  rw [KeyCalls.result, if_neg (not_not.mpr size), if_neg some_, if_neg (not_not.mpr rc), if_pos over_]

theorem replyOutput_failed {out : KeyOut} (failed : out.rc ≠ 0) :
    replyOutput kind.requestType (kind.write env.fresh) out =
      ⟨0, some (writeFailurePacket kind.tag), out.buffer⟩ := by
  rw [replyOutput, if_pos failed]
  exact writeFailure_kind _

/-- An output that is not above the limit is written into a success packet. -/
theorem write_ok (fresh : Bytes) {key : List UInt8} (small : key.length ≤ kind.limit) :
    ∃ data, kind.write fresh key = .ok data ∧ data.take 2 = [kind.tag, packetStatusGood] := by
  have limit : key.length ≤ 512 := small.trans kind.limit_le
  obtain ⟨len, written, one, -⟩ := writePacketLength_some (show key.length < 65536 by omega)
  cases kind with
  | tag65 =>
    refine ⟨tag65Packet :: packetStatusGood :: len ++ key, ?_, rfl⟩
    show writeTag65Packet key = _
    rw [writeTag65Packet, written]
    rfl
  | tag67 =>
    have wrote : writeTag67Packet fresh key =
        .ok (slice (holding (tag67Packet :: packetStatusGood :: len ++ key) fresh) 0 (key.length + 4)) := by
      rw [writeTag67Packet, written]
      rfl
    refine ⟨_, wrote, ?_⟩
    have front : key.length + 4 = 2 + (key.length + 2) := by omega
    rw [front, slice_add, List.take_left' (length_slice _ _ _)]
    exact slice_holding_inside (by simp)

/-- Success and failure packets are told apart by their second byte. -/
theorem write_ne_failure {fresh : Bytes} {key data : List UInt8} (small : key.length ≤ kind.limit)
    (written : kind.write fresh key = .ok data) : data ≠ writeFailurePacket kind.tag := by
  rintro rfl
  obtain ⟨data, written', front⟩ := write_ok fresh small
  obtain rfl := Except.ok.inj (written.symm.trans written')
  have second := congrArg (fun l => l.getLast?) front
  revert second
  cases kind <;> decide

/-- A request whose token was not read does not get to the calls of a module. -/
theorem tokenRead_of_calls {c : KeyCalls} (called : keyModCalls kind ctx env emsg = some c) :
    TokenRead ctx env emsg := by
  intro signature key fields found
  unfold keyModCalls at called
  rw [fields] at called
  simp only [found, Bool.true_eq_false, if_false] at called
  obtain ⟨tok, token, -⟩ := Option.bind_eq_some_iff.mp called
  exact .inr (by rw [token]; rfl)

theorem requestOutput_some {c : KeyCalls} (called : keyModCalls kind ctx env emsg = some c)
    (succeed : c.Succeed) (some_ : c.outSize ≠ 0) (within : c.outSize ≤ kind.limit) :
    requestOutput kind ctx env emsg = some (slice c.out 0 c.outSize) := by
  simp [requestOutput, called, succeed, some_, within]

theorem requestOutput_none {c : KeyCalls} (called : keyModCalls kind ctx env emsg = some c)
    (failed : ¬ (c.Succeed ∧ c.outSize ≠ 0 ∧ c.outSize ≤ kind.limit)) :
    requestOutput kind ctx env emsg = none := by
  simp only [requestOutput, called, Option.filter, failed, decide_false]
  rfl

/-- A request that gets to the calls of a module is answered right unless they succeed with an empty
output. -/
theorem answers_calls (type : (decodePacket emsg).packetType = kind.requestType) {c : KeyCalls}
    (called : keyModCalls kind ctx env emsg = some c) :
    AnswersRight kind ctx env emsg ↔ (c.Succeed → c.outSize ≠ 0) := by
  have parsed := parsePacket_calls type called
  by_cases succeed : c.Succeed
  · rcases lt_or_ge kind.limit c.outSize with over_ | within
    · have some_ : c.outSize ≠ 0 := by omega
      refine iff_of_true ⟨_, parsed, ?_, ?_⟩ fun _ => some_
      · rw [result_over succeed over_, replyOutput_failed (by decide)]
      · rw [requestOutput_none called fun all => not_lt.mpr all.2.2 over_, result_over succeed over_,
          replyOutput_failed (by decide)]
    · have size : (slice c.out 0 c.outSize).length ≤ kind.limit := by rwa [length_slice]
      obtain ⟨data, written, -⟩ := write_ok env.fresh size
      have reply : replyOutput kind.requestType (kind.write env.fresh) (c.result kind.limit) =
          ⟨0, some data, .live⟩ := by
        rw [result_within succeed within, replyOutput, if_neg (not_not.mpr rfl), written]
      rw [reply] at parsed
      constructor
      · rintro ⟨p, parsed', -, answer⟩ - zero
        -- an empty output is sent in a success packet
        obtain rfl := Option.some.inj (parsed.symm.trans parsed')
        rw [requestOutput_none called fun all => all.2.1 zero] at answer
        exact write_ne_failure size written (Option.some.inj answer)
      · intro some_
        refine ⟨_, parsed, rfl, ?_⟩
        rw [requestOutput_some called succeed (some_ succeed) within]
        exact ⟨data, written, rfl⟩
  · refine iff_of_true ⟨_, parsed, ?_, ?_⟩ fun succeed' => absurd succeed' succeed
    · rw [replyOutput_failed (result_failed succeed).1]
    · rw [requestOutput_none called fun all => succeed all.1, replyOutput_failed (result_failed succeed).1]

theorem replyOutput_keyOut (out : KeyOut) :
    (replyOutput kind.requestType (kind.write env.fresh) out).keyOut = out.buffer := by
  unfold replyOutput
  split_ifs
  · rw [writeFailure_kind]
  · split
    · rw [writeFailure_kind]
    · rfl

/-- The buffer of the key is freed twice for an output above the limit. -/
theorem releasesOnce_calls (type : (decodePacket emsg).packetType = kind.requestType) {c : KeyCalls}
    (called : keyModCalls kind ctx env emsg = some c) :
    ReleasesOnce ctx env emsg ↔ (c.Succeed → c.outSize ≤ kind.limit) := by
  have once : ReleasesOnce ctx env emsg ↔ (c.result kind.limit).buffer ≠ .released := by
    unfold ReleasesOnce
    rw [parsePacket_calls type called]
    simp only [Option.some.injEq, forall_eq', replyOutput_keyOut]
  rw [once]
  by_cases succeed : c.Succeed
  · rcases lt_or_ge kind.limit c.outSize with over_ | within
    · rw [result_over succeed over_]
      exact iff_of_false (fun differs => differs rfl) fun le => not_lt.mpr (le succeed) over_
    · rw [result_within succeed within]
      exact iff_of_true nofun fun _ => within
  · exact iff_of_true (result_failed succeed).2 fun succeed' => absurd succeed' succeed

/-- **When a request is answered as its outcomes say.**  The reply is the right one and the buffer of the key is
freed only once, without which the process is aborted in front of the reply, exactly when the token of a key that
is found is read and the second call of the module does not succeed with an output that is empty or above the
limit. -/
theorem answers_iff (kind : ReplyKind) (ctx : List KeyMod) (env : KeyEnv) (emsg : Bytes)
    (type : (decodePacket emsg).packetType = kind.requestType) :
    AnswersRight kind ctx env emsg ∧ ReleasesOnce ctx env emsg ↔
      TokenRead ctx env emsg ∧ OutputNonempty kind ctx env emsg ∧ OutputWithin kind ctx env emsg := by
  rcases called : keyModCalls kind ctx env emsg with _ | c
  · have nonempty : OutputNonempty kind ctx env emsg := fun c some_ => by rw [called] at some_; cases some_
    have within : OutputWithin kind ctx env emsg := fun c some_ => by rw [called] at some_; cases some_
    have noOutput : requestOutput kind ctx env emsg = none := by simp [requestOutput, called]
    constructor
    · rintro ⟨⟨p, parsed, -⟩, -⟩
      refine ⟨?_, nonempty, within⟩
      by_contra unread
      rw [parsePacket_unread type unread] at parsed
      cases parsed
    · rintro ⟨read, -⟩
      have parsed := parsePacket_noCalls type read called
      refine ⟨⟨_, parsed, rfl, by rw [noOutput]⟩, fun p parsed' => ?_⟩
      obtain rfl := Option.some.inj (parsed.symm.trans parsed')
      exact nofun
  · have read := tokenRead_of_calls called
    have answers := answers_calls type called
    have once := releasesOnce_calls type called
    simp [answers, once, read, OutputNonempty, OutputWithin, called]

end

/-- A keyring that holds the token of one module for every signature, with a module that encrypts and
decrypts into a given number of bytes. -/
def KeyEnv.answering (tok : AuthTok) (size outSize : ℕ) : KeyEnv where
  requestKey _ := true
  readAlloc _ := some tok
  encrypt _ _ _ := ⟨0, size, 0, outSize, fun _ => 7⟩
  decrypt _ _ _ := ⟨0, size, 0, outSize, fun _ => 7⟩
  fresh _ := 99

/-- The message of the request for a key in memory. -/
def keyMessage : Bytes := holding keyRequest fun _ => 0

def opensslModule : KeyMod := ⟨"openssl"⟩

def opensslToken : AuthTok := ⟨"openssl", []⟩

theorem answers_decrypted :
    AnswersRight .tag65 [opensslModule] (.answering opensslToken 128 16) keyMessage ∧
      ReleasesOnce [opensslModule] (.answering opensslToken 128 16) keyMessage := by
  have called : keyModCalls .tag65 [opensslModule] (.answering opensslToken 128 16) keyMessage =
      some ⟨0, 128, 0, 16, fun _ => 7⟩ := rfl
  refine (answers_iff .tag65 [opensslModule] (.answering opensslToken 128 16) keyMessage rfl).mpr
    ⟨tokenRead_of_calls called, fun c called' _ => ?_, fun c called' _ => ?_⟩
  · obtain rfl := Option.some.inj (called.symm.trans called')
    decide
  · obtain rfl := Option.some.inj (called.symm.trans called')
    decide

/-- A key that is found and cannot be read: its token is used for the search of the module.  An empty output,
which is sent as a decrypted key; and one above the limit, whose buffer is freed twice. -/
theorem answers_fails :
    (¬ ∀ (kind : ReplyKind) (ctx : List KeyMod) (env : KeyEnv) (raw : List UInt8) (heap : Bytes),
      DeclaredFits raw → (decodePacket (holding raw heap)).packetType = kind.requestType →
        AnswersRight kind ctx env (holding raw heap)) ∧
      parsePacket [opensslModule] { KeyEnv.answering opensslToken 128 16 with readAlloc := fun _ => none }
        keyMessage = none ∧
      parsePacket [opensslModule] (.answering opensslToken 128 0) keyMessage =
        some ⟨0, some [65, 0, 0], .live⟩ ∧
      ¬ ReleasesOnce [opensslModule] (.answering opensslToken 128 65) keyMessage := by
  have unread : parsePacket [opensslModule]
      { KeyEnv.answering opensslToken 128 16 with readAlloc := fun _ => none } keyMessage = none := rfl
  have over_ : parsePacket [opensslModule] (.answering opensslToken 128 65) keyMessage =
      some ⟨0, some (writeFailurePacket 65), .released⟩ := rfl
  refine ⟨fun answers => ?_, unread, rfl, fun once => once _ over_ rfl⟩
  obtain ⟨p, parsed, -⟩ := answers .tag65 [opensslModule]
    { KeyEnv.answering opensslToken 128 16 with readAlloc := fun _ => none }
    keyRequest (fun _ => 0) declaredFits_key rfl
  exact nomatch unread.symm.trans parsed

end Ecryptfs
