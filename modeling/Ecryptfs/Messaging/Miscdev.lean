import Ecryptfs.Lib.Words
import Ecryptfs.Messaging.PacketLength

/-!
# Frames of the misc device

`sendMiscdev` and `recvMiscdev` exchange frames with the kernel: a type byte, a sequence number in
network order and, for some types, a packet length followed by a `struct ecryptfs_message`.  The
receiver works on a buffer whose bytes beyond those read are stale.  `recvMiscdev_ok_iff` describes
the frames it accepts; `miscdev_format_iff` says on which inputs these are the frames that are sent.
-/

namespace Ecryptfs

open Memory

def msgHelo : UInt8 := 100
def msgQuit : UInt8 := 101
def msgRequest : UInt8 := 102
def msgResponse : UInt8 := 103
def msgMaxSize : ℕ := 1024

/-- The size of `struct ecryptfs_message` without its data. -/
def messageHeaderSize : ℕ := 8

/-- A `struct ecryptfs_message` whose `data_len` is the number of its data bytes. -/
structure Message where
  index : UInt32
  data : List UInt8
  fits : data.length < 2 ^ 32

namespace Message

def dataLen (m : Message) : UInt32 := UInt32.ofNat m.data.length

/-- The message as it lies in memory. -/
def bytes (host : Words.ByteOrder) (m : Message) : List UInt8 :=
  Words.store host m.index ++ (Words.store host m.dataLen ++ m.data)

theorem dataLen_toNat (m : Message) : m.dataLen.toNat = m.data.length := by
  rw [dataLen, UInt32.toNat_ofNat', Nat.mod_eq_of_lt m.fits]

theorem length_bytes (host : Words.ByteOrder) (m : Message) :
    (m.bytes host).length = messageHeaderSize + m.data.length := by
  simp only [bytes, List.length_append, Words.length_store, messageHeaderSize]
  omega

end Message

section

variable (host : Words.ByteOrder)

/-- The `data_len` of the message that starts at a pointer. -/
def dataLenField (msg : Bytes) : ℕ := (Words.load host (slice msg 4 4)).toNat

/-- `ecryptfs_send_miscdev`: the frame handed to `write`, for a pointer to a message or for none. -/
def sendMiscdev (msg : Option Bytes) (msgType : UInt8) (msgSeq : UInt32) :
    Except ℤ (List UInt8) :=
  match msg with
  | none => .ok (msgType :: Words.store host (Words.toNetwork host msgSeq))
  | some msg =>
    let packetLen := messageHeaderSize + dataLenField host msg
    match writePacketLength packetLen with
    | .error rc => .error rc
    | .ok packetLenStr => .ok (msgType :: Words.store host (Words.toNetwork host msgSeq) ++
        packetLenStr ++ slice msg 0 packetLen)

/-- What `ecryptfs_recv_miscdev` hands out; `raw` is the content of the allocated message. -/
structure Received where
  msgType : UInt8
  msgSeq : UInt32
  raw : List UInt8
  deriving DecidableEq

/-- `ecryptfs_recv_miscdev`, when `read` fails (`none`) or fills the start of the buffer and leaves
the rest as it was. -/
def recvMiscdev (read : Option (List UInt8)) (stale : Bytes) : Except ℤ Received :=
  match read with
  | none => .error (-eio)
  | some b =>
    if b.length < 1 + 4 then .error (-einval)
    else
      let buf := holding b stale
      let msgType := buf 0
      let msgSeq := Words.toNetwork host (Words.load host (slice buf 1 4))
      match (if msgType = msgRequest then parsePacketLength fun i => buf (5 + i)
        else .ok ⟨0, 0⟩) with
      | .error rc => .error rc
      | .ok p =>
        if 1 + 4 + p.lengthSize + p.size ≠ b.length then .error (-einval)
        else .ok { msgType, msgSeq, raw := slice buf (5 + p.lengthSize) p.size }

end

/-! ## Accepted frames -/

/-- The frames the receiver accepts, with what it hands out for them: any payload of a request, as
long as its length is encoded the way the parser reads it. -/
def Framed (r : Received) (b : List UInt8) : Prop :=
  (r.msgType = msgRequest ∧ r.raw.length < 8384 ∧ ∃ len, writePacketLength r.raw.length = .ok len ∧
      b = r.msgType :: Words.store .big r.msgSeq ++ (len ++ r.raw)) ∨
    (r.msgType ≠ msgRequest ∧ r.raw = [] ∧ b = r.msgType :: Words.store .big r.msgSeq)

variable {host : Words.ByteOrder} {b : List UInt8} {stale : Bytes}

/-- A sequence number read from the wire and written back. -/
theorem store_msgSeq {seq : List UInt8} (four : seq.length = 4) :
    Words.store .big (Words.toNetwork host (Words.load host seq)) = seq := by
  rw [← Words.store_toNetwork host, Words.toNetwork_toNetwork, Words.store_load host four]

theorem slice_shift (m : Bytes) (i n : ℕ) : slice (fun k => m (i + k)) 0 n = slice m i n := by
  simp [slice]

/-- The bytes read, by the fields of the header. -/
theorem split_header (stale : Bytes) {n : ℕ} (size : b.length = 5 + n) :
    b = holding b stale 0 :: slice (holding b stale) 1 4 ++ slice (holding b stale) 5 n := by
  conv_lhs => rw [← slice_holding b stale, size, slice_add, slice_add _ 0 1 4, slice_one]
  rfl

/-- What the receiver accepts is framed. -/
theorem framed_of_recv {r : Received} (done : recvMiscdev host (some b) stale = .ok r) :
    Framed r b := by
  unfold recvMiscdev at done
  simp only at done
  split_ifs at done with short request
  · split at done
    · cases done
    · next p parsed =>
      split_ifs at done with total
      obtain rfl := Except.ok.inj done
      have written := write_parse_packetLength parsed
      rw [slice_shift] at written
      refine .inl ⟨request, ?_, slice (holding b stale) 5 p.lengthSize, ?_, ?_⟩
      · rw [length_slice]
        exact (parsePacketLength_ok parsed).2.1
      · rw [length_slice]
        exact written
      · rw [store_msgSeq (length_slice _ _ _), ← slice_add]
        exact split_header stale (by omega)
  · simp only at done
    split_ifs at done with total
    obtain rfl := Except.ok.inj done
    refine .inr ⟨request, rfl, ?_⟩
    have whole := split_header stale (show b.length = 5 + 0 by omega)
    rw [store_msgSeq (length_slice _ _ _)]
    simpa [slice] using whole

/-- A sequence number written to the wire and read back. -/
theorem load_msgSeq (msgSeq : UInt32) :
    Words.toNetwork host (Words.load host (Words.store .big msgSeq)) = msgSeq := by
  have stored := Words.load_store host (Words.toNetwork host msgSeq) []
  rw [List.append_nil, Words.store_toNetwork] at stored
  rw [stored, Words.toNetwork_toNetwork]

/-- What the buffer holds after the header. -/
theorem holding_header (msgType : UInt8) (msgSeq : UInt32) (rest : List UInt8) (i : ℕ) :
    holding (msgType :: Words.store .big msgSeq ++ rest) stale (5 + i) = holding rest stale i := by
  have five : (msgType :: Words.store .big msgSeq).length = 5 := by simp
  have := holding_length_add (msgType :: Words.store .big msgSeq) (holding rest stale) i
  rwa [five, ← holding_append] at this

theorem slice_header (msgType : UInt8) (msgSeq : UInt32) (rest : List UInt8) :
    slice (holding (msgType :: Words.store .big msgSeq ++ rest) stale) 1 4 =
      Words.store .big msgSeq := by
  rw [slice_holding_inside (by simp)]
  simp

/-- What is framed is accepted, whatever the rest of the buffer holds. -/
theorem recv_of_framed {r : Received} (framed : Framed r b) :
    recvMiscdev host (some b) stale = .ok r := by
  obtain ⟨msgType, msgSeq, raw⟩ := r
  rcases framed with ⟨request, small, len, written, whole⟩ | ⟨other, none_, whole⟩
  · simp only at request small written whole
    have parsed : (parsePacketLength fun i => holding b stale (5 + i)) =
        .ok ⟨raw.length, len.length⟩ := by
      simp only [whole, holding_header]
      rw [holding_append]
      exact parse_written _ written small
    have size : b.length = 5 + (len.length + raw.length) := by
      simp [whole]
      omega
    have payload : slice (holding b stale) (5 + len.length) raw.length = raw := by
      rw [slice_holding_inside (by omega), whole, ← List.append_assoc,
        List.drop_left' (by simp; omega), List.take_length]
    have first : holding b stale 0 = msgType := by rw [whole]; rfl
    have seq : slice (holding b stale) 1 4 = Words.store .big msgSeq := by
      rw [whole, slice_header]
    unfold recvMiscdev
    simp only [if_neg (show ¬ b.length < 1 + 4 by omega), first, if_pos request, parsed]
    rw [if_neg (by omega), payload, seq, load_msgSeq]
  · simp only at other none_ whole
    have size : b.length = 5 := by simp [whole]
    have first : holding b stale 0 = msgType := by rw [whole]; rfl
    have seq : slice (holding b stale) 1 4 = Words.store .big msgSeq := by
      have := @slice_header stale msgType msgSeq []
      rwa [List.append_nil, ← whole] at this
    unfold recvMiscdev
    simp only [if_neg (show ¬ b.length < 1 + 4 by omega), first, if_neg other]
    rw [if_neg (by omega), seq, load_msgSeq, none_]
    rfl

/-- The receiver accepts exactly the framed payloads. -/
theorem recvMiscdev_ok_iff {r : Received} :
    recvMiscdev host (some b) stale = .ok r ↔ Framed r b :=
  ⟨framed_of_recv, recv_of_framed⟩

theorem recvMiscdev_error {rc : ℤ} (failed : recvMiscdev host (some b) stale = .error rc) :
    rc = -einval := by
  unfold recvMiscdev at failed
  simp only at failed
  split_ifs at failed with short request
  · exact (Except.error.inj failed).symm
  · split at failed
    next e parsed =>
      obtain rfl := Except.error.inj failed
      exact parsePacketLength_error parsed
    next =>
      split_ifs at failed
      exact (Except.error.inj failed).symm
  · simp only at failed
    split_ifs at failed
    exact (Except.error.inj failed).symm

/-- The result does not depend on the stale part of the buffer. -/
theorem recvMiscdev_stale (stale stale' : Bytes) :
    recvMiscdev host (some b) stale = recvMiscdev host (some b) stale' := by
  rcases done : recvMiscdev host (some b) stale with rc | r
  · rcases done' : recvMiscdev host (some b) stale' with rc' | r'
    · rw [recvMiscdev_error done, recvMiscdev_error done']
    · rw [recv_of_framed (framed_of_recv done')] at done
      cases done
  · exact (recv_of_framed (framed_of_recv done)).symm

/-! ## Frames that are sent -/

/-- The frame that `ecryptfs_send_miscdev` writes for what was received: with a message for a
request, without one for every other type. -/
def SentAs (host : Words.ByteOrder) (r : Received) (b : List UInt8) : Prop :=
  (r.msgType = msgRequest ∧ ∃ m : Message, r.raw = m.bytes host ∧ ∀ beyond,
      sendMiscdev host (some (holding r.raw beyond)) r.msgType r.msgSeq = .ok b) ∨
    (r.msgType ≠ msgRequest ∧ r.raw = [] ∧ sendMiscdev host none r.msgType r.msgSeq = .ok b)

/-- The receiver accepts exactly what is sent, and looks at nothing but the bytes read. -/
def MiscdevFormat (host : Words.ByteOrder) (b : List UInt8) : Prop :=
  (∀ stale r, recvMiscdev host (some b) stale = .ok r ↔ SentAs host r b) ∧
    ∀ stale stale', recvMiscdev host (some b) stale = recvMiscdev host (some b) stale'

/-- Whatever payload of a request the bytes carry is one whole message. -/
def CarriesMessage (host : Words.ByteOrder) (b : List UInt8) : Prop :=
  ∀ (seq len raw : List UInt8), seq.length = 4 → writePacketLength raw.length = .ok len →
    b = msgRequest :: seq ++ (len ++ raw) →
      messageHeaderSize ≤ raw.length ∧
        (Words.load host (raw.drop 4)).toNat = raw.length - messageHeaderSize

theorem dataLenField_bytes (m : Message) (beyond : Bytes) :
    dataLenField host (holding (m.bytes host) beyond) = m.data.length := by
  have size := m.length_bytes host
  have field : slice (holding (m.bytes host) beyond) 4 4 = Words.store host m.dataLen := by
    rw [slice_holding_inside (by rw [size, messageHeaderSize]; omega), Message.bytes,
      List.drop_left' (by simp), List.take_left' (by simp)]
  have loaded := Words.load_store host m.dataLen []
  rw [List.append_nil] at loaded
  rw [dataLenField, field, loaded, m.dataLen_toNat]

/-- The frame sent for a message. -/
theorem sendMiscdev_message (m : Message) (beyond : Bytes) (msgType : UInt8) (msgSeq : UInt32) :
    sendMiscdev host (some (holding (m.bytes host) beyond)) msgType msgSeq =
      (writePacketLength (m.bytes host).length).map fun len =>
        msgType :: Words.store .big msgSeq ++ (len ++ m.bytes host) := by
  have size := m.length_bytes host
  unfold sendMiscdev
  simp only [dataLenField_bytes, ← size, slice_holding, Words.store_toNetwork]
  rcases writePacketLength (m.bytes host).length with rc | len
  · rfl
  · simp [Except.map]

/-- A payload with a full header whose `data_len` is right is a message. -/
theorem message_of_raw {raw : List UInt8} (header : messageHeaderSize ≤ raw.length)
    (size : (Words.load host (raw.drop 4)).toNat = raw.length - messageHeaderSize) :
    ∃ m : Message, raw = m.bytes host := by
  unfold messageHeaderSize at *
  have four : (raw.take 4).length = 4 := List.length_take_of_le (by omega)
  have four' : ((raw.drop 4).take 4).length = 4 := by
    rw [List.length_take_of_le]
    rw [List.length_drop]
    omega
  have fits : (raw.drop 8).length < 2 ^ 32 := by
    rw [List.length_drop, ← size]
    exact UInt32.toNat_lt _
  refine ⟨⟨Words.load host raw, raw.drop 8, fits⟩, ?_⟩
  have index : Words.store host (Words.load host raw) = raw.take 4 := by
    rw [← Words.load_take, Words.store_load host four]
  have dataLen : Words.store host (UInt32.ofNat (raw.drop 8).length) = (raw.drop 4).take 4 := by
    rw [List.length_drop, ← size, UInt32.ofNat_toNat, ← Words.load_take,
      Words.store_load host four']
  have rest : (raw.drop 4).drop 4 = raw.drop 8 := by rw [List.drop_drop]
  rw [Message.bytes, Message.dataLen, index, dataLen]
  show raw = raw.take 4 ++ ((raw.drop 4).take 4 ++ raw.drop 8)
  rw [← rest, List.take_append_drop, List.take_append_drop]

theorem load_dataLen (m : Message) :
    (Words.load host ((m.bytes host).drop 4)).toNat = m.data.length := by
  rw [Message.bytes, List.drop_left' (by simp), Words.load_store, m.dataLen_toNat]

/-- What is sent is framed, and is a message if it belongs to a request. -/
theorem sentAs_iff {r : Received} (read : b.length ≤ msgMaxSize) : SentAs host r b ↔
    Framed r b ∧ (r.msgType = msgRequest → ∃ m : Message, r.raw = m.bytes host) := by
  unfold SentAs Framed
  constructor
  · rintro (⟨request, m, raw, sent⟩ | ⟨other, empty, sent⟩)
    · have frame := sent fun _ => 0
      rw [raw, sendMiscdev_message] at frame
      rcases written : writePacketLength (m.bytes host).length with rc | len
      · rw [written] at frame
        cases frame
      · rw [written] at frame
        obtain rfl := Except.ok.inj frame
        refine ⟨.inl ⟨request, ?_, len, by rw [raw, written], by rw [raw]⟩, fun _ => ⟨m, raw⟩⟩
        simp only [List.length_append, msgMaxSize] at read
        rw [raw]
        omega
    · rw [sendMiscdev, Words.store_toNetwork] at sent
      exact ⟨.inr ⟨other, empty, (Except.ok.inj sent).symm⟩, fun request => absurd request other⟩
  · rintro ⟨⟨request, -, len, written, rfl⟩ | ⟨other, empty, rfl⟩, message⟩
    · obtain ⟨m, raw⟩ := message request
      refine .inl ⟨request, m, raw, fun beyond => ?_⟩
      rw [raw, sendMiscdev_message, ← raw, written]
      rfl
    · exact .inr ⟨other, empty, by rw [sendMiscdev, Words.store_toNetwork]⟩

/-- **When the receiver accepts exactly what is sent.**  It does so on the bytes read as long as any
request payload they carry is one whole message: neither the header of the message nor its
`data_len` is looked at. -/
theorem miscdev_format_iff (read : b.length ≤ msgMaxSize) :
    MiscdevFormat host b ↔ CarriesMessage host b := by
  constructor
  · rintro ⟨accepts, -⟩ seq len raw four written whole
    have small : raw.length < 8384 := by
      have := congrArg List.length whole
      simp only [List.length_append, msgMaxSize] at read this
      omega
    have framed : Framed ⟨msgRequest, Words.toNetwork host (Words.load host seq), raw⟩ b :=
      .inl ⟨rfl, small, len, written, by simpa only [store_msgSeq four] using whole⟩
    have sent := (accepts (fun _ => 0) _).mp (recv_of_framed framed)
    obtain ⟨m, rfl⟩ := ((sentAs_iff read).mp sent).2 rfl
    rw [load_dataLen, m.length_bytes]
    omega
  · intro carries
    refine ⟨fun stale r => ?_, recvMiscdev_stale⟩
    rw [recvMiscdev_ok_iff, sentAs_iff read]
    refine ⟨fun framed => ⟨framed, fun request => ?_⟩, And.left⟩
    rcases framed with ⟨-, -, len, written, whole⟩ | ⟨other, -⟩
    · rw [request] at whole
      obtain ⟨header, size⟩ := carries _ len r.raw (by simp) written whole
      exact message_of_raw header size
    · exact absurd request other

/-- A request of type 64 with the signature `d395309aaad4de06` and a key of three bytes. -/
def keyRequest : List UInt8 :=
  [1, 0, 0, 0, 22, 0, 0, 0, 64, 16, 100, 51, 57, 53, 51, 48, 57, 97, 97, 97, 100, 52, 100, 101, 48, 54, 3, 1, 2, 3]

/-- The frame of the request is received as it was sent. -/
theorem miscdev_format_key : MiscdevFormat .little ([102, 0, 0, 0, 7, 30] ++ keyRequest) := by
  refine (miscdev_format_iff (by decide)).mpr ?_
  intro seq len raw four written whole
  have size := congrArg List.length whole
  simp only [keyRequest, List.length_append, List.length_cons, List.length_nil] at size
  rw [writePacketLength_one (by omega)] at written
  obtain rfl := Except.ok.inj written
  match seq, four with
  | [a, b, c, d], _ =>
    simp only [List.cons_append, List.nil_append, List.cons.injEq] at whole
    obtain ⟨-, -, -, -, -, -, rfl⟩ := whole
    decide

/-- A request without any message is accepted. -/
theorem miscdev_format_fails : ¬ MiscdevFormat .little [102, 0, 0, 0, 7, 0] := by
  rintro ⟨accepts, -⟩
  have received : recvMiscdev .little (some [102, 0, 0, 0, 7, 0]) (fun _ => 0) =
      .ok ⟨msgRequest, 7, []⟩ := by decide
  rcases (accepts _ _).mp received with ⟨-, m, raw, -⟩ | ⟨other, -⟩
  · have := m.length_bytes .little
    rw [← raw] at this
    simp only [messageHeaderSize, List.length_nil] at this
    omega
  · exact other rfl

end Ecryptfs
