import Ecryptfs.Lib.Ledger
import Ecryptfs.Messaging.DaemonProof
import Ecryptfs.Messaging.Replies

/-!
# Who owns the buffers of the daemon

The pointer to the last message keeps its value when the message is released, and a frame that is not
received leads to the same release; an output of a key module above the limit is released by the
operation and by its caller.  `buffersOwned_iff` says for all runs that these are the only ways to
release a buffer twice.  `free` aborts the process there, so that `takeTurn` goes on only after a turn
that is careful (`takeTurn_careful`, `takeTurn_careless`).

An allocation that fails is one more way not to receive a frame, and the only one that resets the
pointer, so that the turns of the daemon are taken with failing allocations here.
-/

namespace Ecryptfs

open Memory

/-! ## Failing allocations -/

/-- Which allocations of a turn succeed: the buffer for the frame and the message it carries; and while
the message is parsed the signature, the key, the output of the key module, the packet with the output,
and the failure packet. -/
structure Mallocs where
  frame : Bool
  message : Bool
  signature : Bool
  key : Bool
  keyOut : Bool
  packet : Bool
  failure : Bool

namespace Mallocs

def all : Mallocs := ⟨true, true, true, true, true, true, true⟩

variable (a : Mallocs)

/-- The label `write_failure`; a failure packet that was allocated before is forgotten. -/
def writeFailure (packetType : UInt8) (keyOut : KeyBuffer) : Parsed :=
  if a.failure then Ecryptfs.writeFailure packetType keyOut else ⟨-enomem, none, keyOut⟩

/-- The return of `key_mod_encrypt` or `key_mod_decrypt`: the second call of the key module needs a
buffer. -/
def output (out : KeyOut) : KeyOut :=
  if out.buffer = .null ∨ a.keyOut then out else ⟨-enomem, .null, []⟩

/-- The end of the cases for types 64 and 66. -/
def replyOutput (packetType : UInt8) (write : List UInt8 → Except ℤ (List UInt8)) (out : KeyOut) :
    Parsed :=
  if out.rc ≠ 0 ∨ a.packet = false then a.writeFailure packetType out.buffer
  else match write out.key with
    | .error _ => a.writeFailure packetType out.buffer
    | .ok data => ⟨0, some data, out.buffer⟩

/-- `parse_packet`. -/
def parsePacket (ctx : List KeyMod) (env : KeyEnv) (emsg : Bytes) : Option Parsed :=
  let d := decodePacket emsg
  match d.fields with
  | .error _ => some (a.writeFailure d.packetType .null)
  | .ok (signature, key) =>
    let description : CStr := signature.takeWhile (· ≠ 0)
    if a.signature = false ∨ a.key = false then some (a.writeFailure d.packetType .null)
    else if env.requestKey description = false then some (a.writeFailure d.packetType .null)
    else
      let authTok := env.readAlloc description
      if d.packetType = tag64Packet then
        (keyModDecrypt env ctx authTok key).map fun out =>
          a.replyOutput d.packetType writeTag65Packet (a.output out)
      else if d.packetType = tag66Packet then
        (keyModEncrypt env ctx authTok key).map fun out =>
          a.replyOutput d.packetType (writeTag67Packet env.fresh) (a.output out)
      else authTok.map fun _ => ⟨-einval, none, .null⟩

end Mallocs

/-- A turn in which allocations may fail. -/
structure AllocTurn extends Turn where
  mallocs : Mallocs

section

variable (host : Words.ByteOrder) (ctx : List KeyMod)

/-- `ecryptfs_recv_miscdev` up to the point where the message is allocated. -/
def AllocTurn.recv (t : AllocTurn) : Except ℤ Received :=
  if t.mallocs.frame then recvMiscdev host t.read t.stale else .error (-enomem)

/-- The body of the loop at the label `receive`; where the message cannot be allocated, the pointer to
it is null. -/
def allocTurn (t : AllocTurn) (d : Daemon) : Step :=
  match t.recv host with
  | .error _ => receiveError d
  | .ok r =>
    if t.mallocs.message = false then receiveError { d with emsg := none }
    else
      let d := d.allocEmsg
      if r.msgType = msgHelo then .receive { d with errorCount := 0 }.freeEmsg
      else if r.msgType = msgQuit then .out 0 d.freeEmsg
      else if r.msgType = msgRequest then
        answerRequest host (t.mallocs.parsePacket ctx t.env (holding r.raw t.heap)) t.toTurn r d
      else .receive d.freeEmsg

/-- The loop, on the turns that still come. -/
def allocRun : Daemon → List AllocTurn → Exit × Daemon
  | d, [] => (.waiting, d)
  | d, t :: ts =>
    match allocTurn host ctx t d with
    | .receive d' => allocRun d' ts
    | .out rc d' => (.returned rc, d')
    | .fault => (.fault, d)

/-- `ecryptfs_run_miscdev_daemon`. -/
def allocDaemon (registered : Except ℤ (List KeyMod)) (ts : List AllocTurn) : Exit × Daemon :=
  match registered with
  | .error rc => (.returned rc, .init)
  | .ok ctx => allocRun host ctx .init ts

end

variable {host : Words.ByteOrder} {ctx : List KeyMod} {env : KeyEnv} {emsg : Bytes} {a : Mallocs}
  {t : AllocTurn} {d d' : Daemon} {p : Parsed} {b : KeyBuffer}

/-! ### Without failures -/

theorem Mallocs.writeFailure_all : Mallocs.all.writeFailure = Ecryptfs.writeFailure := rfl

theorem Mallocs.output_all (out : KeyOut) : Mallocs.all.output out = out := if_pos (.inr rfl)

theorem Mallocs.replyOutput_all : Mallocs.all.replyOutput = Ecryptfs.replyOutput := by
  funext packetType write out
  unfold Mallocs.replyOutput Ecryptfs.replyOutput
  simp only [Mallocs.all, Bool.true_eq_false, or_false]
  rfl

theorem Mallocs.parsePacket_all : Mallocs.all.parsePacket ctx env emsg =
    Ecryptfs.parsePacket ctx env emsg := by
  have noFailure : ¬ (all.signature = false ∨ all.key = false) := by decide
  unfold Mallocs.parsePacket Ecryptfs.parsePacket
  rcases fields : (decodePacket emsg).fields with rc | ⟨signature, key⟩
  · simp only [fields, writeFailure_all]
  · simp only [fields, if_neg noFailure, writeFailure_all, replyOutput_all, output_all]

/-- When every allocation succeeds, a turn is one of the daemon. -/
theorem allocTurn_all (t : Turn) : allocTurn host ctx ⟨t, .all⟩ d = turn host ctx t d := by
  have parsed : ∀ emsg, (⟨t, .all⟩ : AllocTurn).mallocs.parsePacket ctx t.env emsg =
      parsePacket ctx t.env emsg := fun emsg => Mallocs.parsePacket_all
  unfold allocTurn turn handleRequest
  simp only [parsed]
  rfl

/-! ## The ledger -/

/-- What becomes of the output of a key module, with its handle. -/
def KeyBuffer.entries (h : ℕ) : KeyBuffer → List (Ledger.Entry ℕ)
  | .null => []
  | .live => [.alloc h, .free h]
  | .released => [.alloc h, .free h, .free h]

namespace Daemon

def ledger (d : Daemon) : List (Ledger.Entry ℕ) := bufferLedger d.events

@[simp] theorem ledger_allocEmsg : d.allocEmsg.ledger = d.ledger ++ [.alloc d.nextHandle] := by
  simp [allocEmsg, log, ledger, bufferLedger, Event.entry]

theorem ledger_freeEmsg : d.freeEmsg.ledger = d.ledger ++ (d.emsg.map Ledger.Entry.free).toList := by
  cases emsg : d.emsg <;> simp [freeEmsg, log, ledger, bufferLedger, Event.entry, emsg]

@[simp] theorem ledger_keyBuffer (b : KeyBuffer) :
    (d.keyBuffer b).ledger = d.ledger ++ b.entries d.nextHandle := by
  cases b <;> simp [keyBuffer, log, ledger, bufferLedger, Event.entry, KeyBuffer.entries]

@[simp] theorem ledger_write (frame : List UInt8) : (d.log [.write frame]).ledger = d.ledger := by
  simp [log, ledger, bufferLedger, Event.entry]

@[simp] theorem emsg_keyBuffer (b : KeyBuffer) : (d.keyBuffer b).emsg = d.emsg := by
  cases b <;> rfl

theorem nextHandle_keyBuffer (b : KeyBuffer) : d.nextHandle ≤ (d.keyBuffer b).nextHandle ∧
    (b ≠ .null → d.nextHandle < (d.keyBuffer b).nextHandle) := by
  cases b
  · exact ⟨le_rfl, fun differs => absurd rfl differs⟩
  · exact ⟨Nat.le_succ _, fun _ => Nat.lt_succ_self _⟩
  · exact ⟨Nat.le_succ _, fun _ => Nat.lt_succ_self _⟩

end Daemon

/-! ## One request -/

theorem Mallocs.writeFailure_keyOut (packetType : UInt8) :
    (a.writeFailure packetType b).keyOut = b := by
  unfold Mallocs.writeFailure
  split_ifs <;> rfl

theorem Mallocs.replyOutput_keyOut {packetType : UInt8} {write : List UInt8 → Except ℤ (List UInt8)}
    (out : KeyOut) : (a.replyOutput packetType write out).keyOut = out.buffer := by
  unfold Mallocs.replyOutput
  split_ifs
  · exact writeFailure_keyOut packetType
  · split
    · exact writeFailure_keyOut packetType
    · rfl

theorem Mallocs.writeFailure_reply (packetType : UInt8) (zero : (a.writeFailure packetType b).rc = 0) :
    (a.writeFailure packetType b).reply.isSome := by
  unfold Mallocs.writeFailure at zero ⊢
  split_ifs at zero ⊢
  · rfl
  · have failed : (-enomem : ℤ) ≠ 0 := by decide
    exact absurd zero failed

theorem Mallocs.replyOutput_reply {packetType : UInt8} {write : List UInt8 → Except ℤ (List UInt8)}
    (out : KeyOut) (zero : (a.replyOutput packetType write out).rc = 0) :
    (a.replyOutput packetType write out).reply.isSome := by
  unfold Mallocs.replyOutput at zero ⊢
  split_ifs at zero ⊢
  · exact writeFailure_reply packetType zero
  · split at zero
    · exact writeFailure_reply packetType zero
    · rfl

theorem Mallocs.parsePacket_kind {kind : ReplyKind}
    (type : (decodePacket emsg).packetType = kind.requestType) :
    a.parsePacket ctx env emsg = match (decodePacket emsg).fields with
      | .error _ => some (a.writeFailure kind.requestType .null)
      | .ok (signature, key) =>
        if a.signature = false ∨ a.key = false then some (a.writeFailure kind.requestType .null)
        else if env.requestKey (signature.takeWhile (· ≠ 0)) = false then
          some (a.writeFailure kind.requestType .null)
        else (keyModCall kind.limit (kind.calls env · key ·) ctx
            (env.readAlloc (signature.takeWhile (· ≠ 0)))).map fun out =>
          a.replyOutput kind.requestType (kind.write env.fresh) (a.output out) := by
  simp only [Mallocs.parsePacket, type]
  cases kind <;> rfl

/-- A request is parsed without an error only if there is a reply. -/
theorem Mallocs.parsePacket_replied (parsed : a.parsePacket ctx env emsg = some p) (zero : p.rc = 0) :
    p.reply.isSome := by
  unfold Mallocs.parsePacket at parsed
  simp only at parsed
  split at parsed
  · obtain rfl := Option.some.inj parsed
    exact writeFailure_reply _ zero
  · split_ifs at parsed
    · obtain rfl := Option.some.inj parsed
      exact writeFailure_reply _ zero
    · obtain rfl := Option.some.inj parsed
      exact writeFailure_reply _ zero
    · obtain ⟨out, -, rfl⟩ := Option.map_eq_some_iff.mp parsed
      exact replyOutput_reply _ zero
    · obtain ⟨out, -, rfl⟩ := Option.map_eq_some_iff.mp parsed
      exact replyOutput_reply _ zero
    · obtain ⟨tok, -, rfl⟩ := Option.map_eq_some_iff.mp parsed
      have failed : (-einval : ℤ) ≠ 0 := by decide
      exact absurd zero failed

theorem Mallocs.parsePacket_called {kind : ReplyKind} {c : KeyCalls}
    (type : (decodePacket emsg).packetType = kind.requestType)
    (allocated : a.signature = true ∧ a.key = true)
    (calls : keyModCalls kind ctx env emsg = some c) : a.parsePacket ctx env emsg =
      some (a.replyOutput kind.requestType (kind.write env.fresh) (a.output (c.result kind.limit))) := by
  have noFailure : ¬ (a.signature = false ∨ a.key = false) := by
    rw [allocated.1, allocated.2]
    decide
  rw [parsePacket_kind type]
  unfold keyModCalls at calls
  rcases fields : (decodePacket emsg).fields with rc | ⟨signature, key⟩
  · rw [fields] at calls
    cases calls
  · rw [fields] at calls
    simp only at calls ⊢
    split_ifs at calls with missing
    obtain ⟨tok, token, calls⟩ := Option.bind_eq_some_iff.mp calls
    obtain ⟨m, found, rfl⟩ := Option.map_eq_some_iff.mp calls
    rw [if_neg noFailure, if_neg missing, token, keyModCall_eq, found]
    rfl

theorem keyModCall_notFound {limit : ℕ} {calls : KeyMod → List UInt8 → KeyCalls} {tok : Option AuthTok}
    {out : KeyOut} (called : keyModCall limit calls ctx tok = some out)
    (notFound : ∀ t, tok = some t → findKeyMod ctx t.keyModAlias = none) :
    out = ⟨-einval, .null, []⟩ := by
  rcases tok with _ | t
  · cases ctx with
    | nil => exact (Option.some.inj called).symm
    | cons m ctx => cases called
  · rw [keyModCall_eq, notFound t rfl] at called
    exact (Option.some.inj called).symm

theorem Mallocs.parsePacket_noKey {kind : ReplyKind} (parsed : a.parsePacket ctx env emsg = some p)
    (type : (decodePacket emsg).packetType = kind.requestType)
    (noCalls : a.signature = true ∧ a.key = true → keyModCalls kind ctx env emsg = none) :
    p.keyOut = .null := by
  rw [parsePacket_kind type] at parsed
  unfold keyModCalls at noCalls
  rcases fields : (decodePacket emsg).fields with rc | ⟨signature, key⟩
  · rw [fields] at parsed
    obtain rfl := Option.some.inj parsed
    exact writeFailure_keyOut _
  · rw [fields] at parsed noCalls
    simp only at parsed noCalls
    split_ifs at parsed noCalls with noMemory missing
    · obtain rfl := Option.some.inj parsed
      exact writeFailure_keyOut _
    · obtain rfl := Option.some.inj parsed
      exact writeFailure_keyOut _
    · obtain rfl := Option.some.inj parsed
      exact writeFailure_keyOut _
    · obtain ⟨out, called, rfl⟩ := Option.map_eq_some_iff.mp parsed
      have allocated : a.signature = true ∧ a.key = true := by
        rw [not_or, Bool.not_eq_false, Bool.not_eq_false] at noMemory
        exact noMemory
      have notFound := noCalls allocated
      rw [keyModCall_notFound called, replyOutput_keyOut, Mallocs.output, if_pos (.inl rfl)]
      intro tok token
      rw [token, Option.bind_some, Option.map_eq_none_iff] at notFound
      exact notFound

theorem Mallocs.parsePacket_other (parsed : a.parsePacket ctx env emsg = some p)
    (other : ∀ kind : ReplyKind, (decodePacket emsg).packetType ≠ kind.requestType) :
    p.keyOut = .null := by
  have not64 : (decodePacket emsg).packetType ≠ tag64Packet := other .tag65
  have not66 : (decodePacket emsg).packetType ≠ tag66Packet := other .tag67
  unfold Mallocs.parsePacket at parsed
  simp only [if_neg not64, if_neg not66] at parsed
  split at parsed
  · obtain rfl := Option.some.inj parsed
    exact writeFailure_keyOut _
  · split_ifs at parsed
    · obtain rfl := Option.some.inj parsed
      exact writeFailure_keyOut _
    · obtain rfl := Option.some.inj parsed
      exact writeFailure_keyOut _
    · obtain ⟨tok, -, rfl⟩ := Option.map_eq_some_iff.mp parsed
      rfl

/-- No output of a key module that was allocated is above the limit. -/
def OutputsWithin (a : Mallocs) (ctx : List KeyMod) (env : KeyEnv) (emsg : Bytes) : Prop :=
  a.signature = true ∧ a.key = true → a.keyOut = true → ∀ kind : ReplyKind,
    (decodePacket emsg).packetType = kind.requestType → OutputWithin kind ctx env emsg

theorem ReplyKind.requestType_injective : Function.Injective ReplyKind.requestType := by
  intro kind kind' same
  cases kind <;> cases kind' <;> first | rfl | exact absurd same (by decide)

/-- Of the two kinds only that of the request matters. -/
theorem outputsWithin_iff {kind : ReplyKind} (type : (decodePacket emsg).packetType = kind.requestType) :
    OutputsWithin a ctx env emsg ↔ (a.signature = true ∧ a.key = true → a.keyOut = true →
      ∀ c, keyModCalls kind ctx env emsg = some c → c.Succeed → c.outSize ≤ kind.limit) := by
  constructor
  · exact fun within allocated buffer => within allocated buffer kind type
  · intro within allocated buffer kind' type'
    obtain rfl := ReplyKind.requestType_injective (type.symm.trans type')
    exact within allocated buffer

theorem result_released {limit : ℕ} {c : KeyCalls} :
    (c.result limit).buffer = .released ↔ c.Succeed ∧ limit < c.outSize := by
  by_cases succeed : c.Succeed
  · rcases lt_or_ge limit c.outSize with over_ | within
    · rw [result_over succeed over_]
      exact iff_of_true rfl ⟨succeed, over_⟩
    · rw [result_within succeed within]
      exact iff_of_false nofun fun both => not_lt.mpr within both.2
  · exact iff_of_false (result_failed succeed).2 fun both => succeed both.1

theorem Mallocs.output_released {out : KeyOut} :
    (a.output out).buffer = .released ↔ a.keyOut = true ∧ out.buffer = .released := by
  unfold Mallocs.output
  split_ifs with kept
  · rcases kept with null | buffer
    · rw [null]
      exact iff_of_false nofun fun both => nomatch both.2
    · exact (and_iff_right buffer).symm
  · rw [not_or] at kept
    exact iff_of_false nofun fun both => kept.2 both.1

/-- **The output key is released twice** exactly if it is above the limit. -/
theorem Mallocs.parsePacket_released (parsed : a.parsePacket ctx env emsg = some p) :
    p.keyOut = .released ↔ ¬ OutputsWithin a ctx env emsg := by
  by_cases known : ∃ kind : ReplyKind, (decodePacket emsg).packetType = kind.requestType
  · obtain ⟨kind, type⟩ := known
    rw [outputsWithin_iff type]
    by_cases noCalls : a.signature = true ∧ a.key = true → keyModCalls kind ctx env emsg = none
    · rw [parsePacket_noKey parsed type noCalls]
      refine iff_of_false nofun fun above => above fun allocated _ c calls => ?_
      cases (noCalls allocated).symm.trans calls
    · obtain ⟨allocated, some_⟩ := Classical.not_imp.mp noCalls
      obtain ⟨c, calls⟩ := Option.ne_none_iff_exists'.mp some_
      rw [parsePacket_called type allocated calls] at parsed
      obtain rfl := Option.some.inj parsed
      rw [replyOutput_keyOut, output_released, result_released]
      simp only [allocated, and_self, forall_const, calls, Option.some.injEq, forall_eq']
      push Not
      rfl
  · rw [parsePacket_other parsed fun kind type => known ⟨kind, type⟩]
    exact iff_of_false nofun fun above => above fun _ _ kind type => absurd ⟨kind, type⟩ known

/-- Where a token is used that was not read, no key module is called. -/
theorem Mallocs.outputsWithin_of_none (fault : a.parsePacket ctx env emsg = none) :
    OutputsWithin a ctx env emsg := by
  intro allocated _ kind type c calls
  rw [parsePacket_called type allocated calls] at fault
  cases fault

/-! ## One turn -/

/-- A turn after which a message was handed out and released, and an output key was treated as `b`
says. -/
structure Served (b : KeyBuffer) (d d' : Daemon) : Prop where
  emsg : d'.emsg = some d.nextHandle
  next : d.nextHandle < d'.nextHandle ∧ (b ≠ .null → d.nextHandle + 1 < d'.nextHandle)
  ledger : d'.ledger = d.ledger ++
    .alloc d.nextHandle :: (b.entries (d.nextHandle + 1) ++ [.free d.nextHandle])

theorem Served.free (emsg : d'.emsg = some d.nextHandle)
    (next : d.nextHandle < d'.nextHandle ∧ (b ≠ .null → d.nextHandle + 1 < d'.nextHandle))
    (ledger : d'.ledger = d.ledger ++ .alloc d.nextHandle :: b.entries (d.nextHandle + 1)) :
    Served b d d'.freeEmsg := by
  refine ⟨emsg, next, ?_⟩
  rw [Daemon.ledger_freeEmsg, ledger, emsg, List.append_assoc, List.cons_append]
  rfl

theorem Served.message : Served .null d d.allocEmsg.freeEmsg :=
  .free rfl ⟨Nat.lt_succ_self _, fun differs => absurd rfl differs⟩ Daemon.ledger_allocEmsg

/-- A request that is parsed is served, whether or not its answer can be sent. -/
theorem answerRequest_served (t : Turn) (r : Received) (replied : p.rc = 0 → p.reply.isSome) :
    ∃ d', answerRequest host (some p) t r d.allocEmsg = .receive d' ∧ Served p.keyOut d d' := by
  have next := Daemon.nextHandle_keyBuffer (d := d.allocEmsg) p.keyOut
  have served : ∀ d' : Daemon, d'.emsg = some d.nextHandle →
      d'.nextHandle = (d.allocEmsg.keyBuffer p.keyOut).nextHandle →
      d'.ledger = (d.allocEmsg.keyBuffer p.keyOut).ledger → Served p.keyOut d d'.freeEmsg := by
    intro d' emsg nextHandle ledger
    refine .free emsg ?_ ?_
    · rw [nextHandle]
      exact next
    · rw [ledger, Daemon.ledger_keyBuffer, Daemon.ledger_allocEmsg, List.append_assoc]
      rfl
  have emsg : (d.allocEmsg.keyBuffer p.keyOut).emsg = some d.nextHandle := Daemon.emsg_keyBuffer p.keyOut
  unfold answerRequest
  simp only
  by_cases failed : p.rc ≠ 0
  · rw [if_pos failed]
    exact ⟨_, rfl, served _ emsg rfl rfl⟩
  · rw [if_neg failed]
    obtain ⟨data, reply⟩ := Option.isSome_iff_exists.mp (replied (not_not.mp failed))
    rw [reply]
    simp only
    split
    · exact ⟨_, rfl, served _ emsg rfl rfl⟩
    · exact ⟨_, rfl, served _ emsg rfl (Daemon.ledger_write _)⟩

/-- A turn in which nothing is released twice: if a frame is not received before its message is
allocated, there is no last message or the loop ends with this error; and no output key of a request is
above the limit. -/
structure Careful (host : Words.ByteOrder) (ctx : List KeyMod) (t : AllocTurn) (d : Daemon) : Prop where
  receive : ∀ rc, t.recv host = .error rc → d.emsg = none ∨ msgErrorCountThreshold ≤ d.errorCount
  outputs : ∀ r, t.recv host = .ok r → t.mallocs.message = true → r.msgType = msgRequest →
    OutputsWithin t.mallocs ctx t.env (holding r.raw t.heap)

/-- What a turn is. -/
inductive Handled (host : Words.ByteOrder) (ctx : List KeyMod) (t : AllocTurn) (d : Daemon) : Prop
  | noFrame {rc : ℤ} (failed : t.recv host = .error rc) (turned : allocTurn host ctx t d = receiveError d)
  | noMessage {r : Received} (received : t.recv host = .ok r) (noMessage : t.mallocs.message = false)
      (turned : allocTurn host ctx t d = receiveError { d with emsg := none })
  | served {r : Received} {b : KeyBuffer} {d' : Daemon} (received : t.recv host = .ok r)
      (message : t.mallocs.message = true) (served : Served b d d')
      (turned : allocTurn host ctx t d = .receive d' ∨ allocTurn host ctx t d = .out 0 d')
      (released : b = .released ↔ ¬ (r.msgType = msgRequest →
        OutputsWithin t.mallocs ctx t.env (holding r.raw t.heap)))
  | fault {r : Received} (received : t.recv host = .ok r) (message : t.mallocs.message = true)
      (within : OutputsWithin t.mallocs ctx t.env (holding r.raw t.heap))
      (turned : allocTurn host ctx t d = .fault)

theorem allocTurn_handled (host : Words.ByteOrder) (ctx : List KeyMod) (t : AllocTurn) (d : Daemon) :
    Handled host ctx t d := by
  rcases received : t.recv host with rc | r
  · exact .noFrame received (by rw [allocTurn, received])
  by_cases noMessage : t.mallocs.message = false
  · refine .noMessage received noMessage ?_
    rw [allocTurn, received]
    exact if_pos noMessage
  have message := Bool.eq_true_of_not_eq_false noMessage
  have turned : allocTurn host ctx t d =
      if r.msgType = msgHelo then .receive { d.allocEmsg with errorCount := 0 }.freeEmsg
      else if r.msgType = msgQuit then .out 0 d.allocEmsg.freeEmsg
      else if r.msgType = msgRequest then
        answerRequest host (t.mallocs.parsePacket ctx t.env (holding r.raw t.heap)) t.toTurn r d.allocEmsg
      else .receive d.allocEmsg.freeEmsg := by
    rw [allocTurn, received]
    exact if_neg noMessage
  have noOutput : r.msgType ≠ msgRequest → (KeyBuffer.null = .released ↔ ¬ (r.msgType = msgRequest →
      OutputsWithin t.mallocs ctx t.env (holding r.raw t.heap))) :=
    fun other => iff_of_false nofun fun above => above fun request => absurd request other
  split_ifs at turned with helo quit request
  · refine .served received message (Served.free rfl ?_ Daemon.ledger_allocEmsg) (.inl turned)
      (noOutput (by rw [helo]; decide))
    exact ⟨Nat.lt_succ_self _, fun differs => absurd rfl differs⟩
  · exact .served received message .message (.inr turned) (noOutput (by rw [quit]; decide))
  · rcases parsed : t.mallocs.parsePacket ctx t.env (holding r.raw t.heap) with _ | p
    · rw [parsed] at turned
      exact .fault received message (Mallocs.outputsWithin_of_none parsed) turned
    · rw [parsed] at turned
      obtain ⟨d', answered, served⟩ := @answerRequest_served host d p t.toTurn r
        (Mallocs.parsePacket_replied parsed)
      refine .served received message served (.inl (turned.trans answered)) ?_
      rw [Mallocs.parsePacket_released parsed]
      exact not_congr ⟨fun within _ => within, fun within => within request⟩
  · exact .served received message .message (.inl turned) (noOutput request)

theorem receiveError_cases (d : Daemon) :
    (msgErrorCountThreshold ≤ d.errorCount ∧
      receiveError d = .out (-eio) { d with errorCount := d.errorCount + 1 }) ∨
    (d.errorCount < msgErrorCountThreshold ∧
      receiveError d = .receive { d with errorCount := d.errorCount + 1 }.freeEmsg) := by
  unfold receiveError
  rcases Nat.lt_or_ge d.errorCount msgErrorCountThreshold with below | full
  · exact .inr ⟨below, if_neg (by dsimp only; omega)⟩
  · exact .inl ⟨full, if_pos (by dsimp only; omega)⟩

/-! ## The ledger of a turn -/

/-- A daemon between two turns: its ledger is sound, the last message is released, and the handles that
follow are new. -/
structure Settled (d : Daemon) : Prop where
  sound : Ledger.Sound d.ledger
  released : ∀ h, d.emsg = some h → .free h ∈ d.ledger
  below : ∀ h, .alloc h ∈ d.ledger → h < d.nextHandle

theorem Settled.fresh (settled : Settled d) {h : ℕ} (new : d.nextHandle ≤ h) :
    .alloc h ∉ d.ledger ∧ .free h ∉ d.ledger := by
  have absent : .alloc h ∉ d.ledger := fun among => not_lt.mpr new (settled.below h among)
  exact ⟨absent, fun among => absent (settled.sound.alloc_of_free among)⟩

theorem Settled.served (settled : Settled d) (served : Served b d d') (once : b ≠ .released) :
    Settled d' := by
  have message := settled.fresh le_rfl
  have output := settled.fresh (Nat.le_succ d.nextHandle)
  refine ⟨?_, fun h last => ?_, fun h among => ?_⟩
  · rw [served.ledger]
    cases b with
    | null =>
      have shape : d.ledger ++ Ledger.Entry.alloc d.nextHandle ::
          (KeyBuffer.null.entries (d.nextHandle + 1) ++ [Ledger.Entry.free d.nextHandle]) =
          d.ledger ++ [Ledger.Entry.alloc d.nextHandle] ++ [Ledger.Entry.free d.nextHandle] := by
        simp [KeyBuffer.entries]
      rw [shape, Ledger.sound_free, Ledger.sound_alloc]
      exact ⟨settled.sound, by simp, by simp [message.2]⟩
    | live =>
      have shape : d.ledger ++ Ledger.Entry.alloc d.nextHandle ::
          (KeyBuffer.live.entries (d.nextHandle + 1) ++ [Ledger.Entry.free d.nextHandle]) =
          d.ledger ++ [Ledger.Entry.alloc d.nextHandle] ++ [Ledger.Entry.alloc (d.nextHandle + 1)] ++
            [Ledger.Entry.free (d.nextHandle + 1)] ++ [Ledger.Entry.free d.nextHandle] := by
        simp [KeyBuffer.entries]
      rw [shape, Ledger.sound_free, Ledger.sound_free, Ledger.sound_alloc, Ledger.sound_alloc]
      exact ⟨⟨settled.sound, by simp, by simp [output.2]⟩, by simp, by simp [message.2]⟩
    | released => exact absurd rfl once
  · obtain rfl := Option.some.inj (last.symm.trans served.emsg)
    rw [served.ledger]
    simp
  · have next := served.next
    rw [served.ledger, List.mem_append, List.mem_cons, List.mem_append] at among
    rcases among with old | same | key | free
    · exact (settled.below h old).trans next.1
    · rw [Ledger.Entry.alloc.inj same]
      exact next.1
    · cases b with
      | null => cases key
      | live =>
        have same : h = d.nextHandle + 1 := by simpa [KeyBuffer.entries] using key
        rw [same]
        exact next.2 nofun
      | released => exact absurd rfl once
    · cases List.mem_singleton.mp free

theorem Served.not_sound (served : Served .released d d') : ¬ Ledger.Sound d'.ledger := by
  intro sound
  rw [served.ledger] at sound
  have twice : d.ledger ++
      [Ledger.Entry.alloc d.nextHandle, Ledger.Entry.alloc (d.nextHandle + 1),
        Ledger.Entry.free (d.nextHandle + 1)] ++
        [Ledger.Entry.free (d.nextHandle + 1)] <+: d.ledger ++ Ledger.Entry.alloc d.nextHandle ::
          (KeyBuffer.released.entries (d.nextHandle + 1) ++ [Ledger.Entry.free d.nextHandle]) := by
    refine ⟨[.free d.nextHandle], ?_⟩
    simp [KeyBuffer.entries]
  exact Ledger.not_sound_of_freed (by simp) (sound.of_prefix twice)

/-- What becomes of the ledger in a turn from a state between turns. -/
def Step.Keeps (careful : Prop) : Step → Prop
  | .receive d' => (careful → Settled d') ∧ (¬ careful → ¬ Ledger.Sound d'.ledger)
  | .out _ d' => Ledger.Sound d'.ledger ↔ careful
  | .fault => careful

theorem Step.Keeps.congr {careful careful' : Prop} {step : Step} (keeps : step.Keeps careful)
    (same : careful ↔ careful') : step.Keeps careful' := by
  rwa [← propext same]

theorem Settled.freeEmsg (settled : Settled d) :
    (d.emsg = none → Settled d.freeEmsg) ∧ (d.emsg ≠ none → ¬ Ledger.Sound d.freeEmsg.ledger) := by
  have ledger : d.freeEmsg.ledger = d.ledger ++ (d.emsg.map Ledger.Entry.free).toList :=
    Daemon.ledger_freeEmsg
  constructor
  · intro none_
    have same : d.freeEmsg.ledger = d.ledger := by
      rw [ledger, none_]
      exact List.append_nil _
    refine ⟨?_, fun h last => ?_, ?_⟩
    · rw [same]
      exact settled.sound
    · cases none_.symm.trans last
    · rw [same]
      exact settled.below
  · intro some_
    obtain ⟨h, last⟩ := Option.ne_none_iff_exists'.mp some_
    rw [ledger, last]
    exact Ledger.not_sound_of_freed (settled.released h last)

theorem Settled.receiveError (settled : Settled d) :
    (receiveError d).Keeps (d.emsg = none ∨ msgErrorCountThreshold ≤ d.errorCount) := by
  rcases receiveError_cases d with ⟨full, turned⟩ | ⟨below, turned⟩
  · rw [turned]
    exact iff_of_true settled.sound (.inr full)
  · rw [turned]
    have counted : Settled { d with errorCount := d.errorCount + 1 } :=
      ⟨settled.sound, settled.released, settled.below⟩
    constructor
    · exact fun careful => counted.freeEmsg.1 (careful.resolve_right (not_le.mpr below))
    · exact fun careless => counted.freeEmsg.2 fun none_ => careless (.inl none_)

/-- Without a last message the next one is not released by mistake. -/
theorem Settled.noMessage (settled : Settled d) : Settled { d with emsg := none } :=
  ⟨settled.sound, fun _ last => (nomatch last), settled.below⟩

/-- **The ledger of a turn.**  It stays sound exactly if the turn is careful. -/
theorem Settled.turn (settled : Settled d) :
    (allocTurn host ctx t d).Keeps (Careful host ctx t d) := by
  cases allocTurn_handled host ctx t d with
  | noFrame failed turned =>
    rw [turned]
    refine settled.receiveError.congr ⟨fun careful => ⟨fun _ _ => careful, ?_⟩, fun careful => ?_⟩
    · intro r received
      cases failed.symm.trans received
    · exact careful.receive _ failed
  | noMessage received noMessage turned =>
    rw [turned]
    refine settled.noMessage.receiveError.congr (iff_of_true (.inl rfl) ⟨?_, ?_⟩)
    · intro rc failed
      cases received.symm.trans failed
    · intro r _ message
      cases noMessage.symm.trans message
  | @served r b d' received message served turned released =>
    have careful : Careful host ctx t d ↔ b ≠ .released := by
      rw [Ne, released, not_not]
      constructor
      · exact fun careful => careful.outputs r received message
      · intro within
        refine ⟨fun rc failed => ?_, fun r' received' _ request => ?_⟩
        · cases received.symm.trans failed
        · obtain rfl := Except.ok.inj (received.symm.trans received')
          exact within request
    have twice : ¬ Careful host ctx t d → ¬ Ledger.Sound d'.ledger := by
      rw [careful, not_not]
      rintro rfl
      exact served.not_sound
    rcases turned with turned | turned
    · rw [turned]
      exact ⟨fun once => settled.served served (careful.mp once), twice⟩
    · rw [turned]
      exact ⟨fun sound => by_contra fun careless => twice careless sound,
        fun once => (settled.served served (careful.mp once)).sound⟩
  | fault received message within turned =>
    rw [turned]
    refine ⟨fun rc failed => ?_, fun r' received' _ _ => ?_⟩
    · cases received.symm.trans failed
    · obtain rfl := Except.ok.inj (received.symm.trans received')
      exact within

/-- The daemon after a turn that did not fault. -/
def Step.daemon? : Step → Option Daemon
  | .receive d' | .out _ d' => some d'
  | .fault => none

theorem allocTurn_grows (left : (allocTurn host ctx t d).daemon? = some d') : d.ledger <+: d'.ledger := by
  have error : ∀ d₁ : Daemon, d₁.ledger = d.ledger → (receiveError d₁).daemon? = some d' →
      d.ledger <+: d'.ledger := by
    intro d₁ same turned
    rcases receiveError_cases d₁ with ⟨-, out⟩ | ⟨-, goes⟩
    · rw [out] at turned
      obtain rfl := Option.some.inj turned
      exact same ▸ List.prefix_rfl
    · rw [goes] at turned
      obtain rfl := Option.some.inj turned
      rw [Daemon.ledger_freeEmsg, ← same]
      exact List.prefix_append _ _
  cases allocTurn_handled host ctx t d with
  | noFrame failed turned => exact error d rfl (turned ▸ left)
  | noMessage received noMessage turned => exact error { d with emsg := none } rfl (turned ▸ left)
  | @served r b d₁ received message served turned released =>
    have same : d₁ = d' := by
      rcases turned with turned | turned
      · rw [turned] at left
        exact Option.some.inj left
      · rw [turned] at left
        exact Option.some.inj left
    rw [← same, served.ledger]
    exact List.prefix_append _ _
  | fault received message within turned =>
    rw [turned] at left
    cases left

/-! ## Runs -/

/-- A run all of whose turns are careful. -/
def CarefulRun (host : Words.ByteOrder) (ctx : List KeyMod) : Daemon → List AllocTurn → Prop
  | _, [] => True
  | d, t :: ts => Careful host ctx t d ∧
      ∀ d', allocTurn host ctx t d = .receive d' → CarefulRun host ctx d' ts

theorem allocRun_grows (d : Daemon) (ts : List AllocTurn) :
    d.ledger <+: (allocRun host ctx d ts).2.ledger := by
  induction ts generalizing d with
  | nil => exact List.prefix_rfl
  | cons t ts ih =>
    rw [allocRun]
    rcases turned : allocTurn host ctx t d with d' | ⟨rc, d'⟩ | _
    · exact (allocTurn_grows (by rw [turned]; rfl)).trans (ih d')
    · exact allocTurn_grows (by rw [turned]; rfl)
    · exact List.prefix_rfl

/-- The ledger of a run from a state between turns stays sound exactly if its turns are careful: a turn
that is not spoils it for good. -/
theorem allocRun_sound (settled : Settled d) (ts : List AllocTurn) :
    Ledger.Sound (allocRun host ctx d ts).2.ledger ↔ CarefulRun host ctx d ts := by
  induction ts generalizing d with
  | nil => exact iff_of_true settled.sound trivial
  | cons t ts ih =>
    have keeps := @Settled.turn host ctx t d settled
    rw [allocRun, CarefulRun]
    rcases turned : allocTurn host ctx t d with d' | ⟨rc, d'⟩ | _
    · rw [turned] at keeps
      by_cases careful : Careful host ctx t d
      · dsimp only
        rw [ih (keeps.1 careful)]
        simp [careful]
      · refine iff_of_false (fun sound => ?_) fun both => careful both.1
        exact keeps.2 careful (sound.of_prefix (allocRun_grows d' ts))
    · rw [turned] at keeps
      exact keeps.trans (and_iff_left fun d' same => nomatch same).symm
    · rw [turned] at keeps
      exact iff_of_true settled.sound ⟨keeps, fun d' same => nomatch same⟩

theorem settled_init : Settled .init :=
  ⟨Ledger.sound_nil, fun _ last => (nomatch last), fun _ among => (nomatch among)⟩

/-! ## Where the process is aborted -/

theorem bufferLedger_append (done events : List Event) :
    bufferLedger (done ++ events) = bufferLedger done ++ bufferLedger events := List.filterMap_append

theorem sound_event {done : List Event} (sound : Ledger.Sound (bufferLedger done)) (e : Event) :
    Ledger.Sound (bufferLedger (done ++ [e])) ↔
      ∀ h ∈ e.entry.bind Ledger.Entry.freed, Ledger.Live (bufferLedger done) h := by
  have single : bufferLedger [e] = e.entry.toList := by cases e <;> rfl
  rw [bufferLedger_append, single]
  rcases e.entry with _ | h | h
  · exact iff_of_true (by simpa using sound) (by simp)
  · exact iff_of_true (by simpa using sound) (by simp [Ledger.Entry.freed])
  · rw [Option.toList_some, Ledger.sound_free, and_iff_right sound]
    simp [Ledger.Entry.freed]

theorem untilAbort_eq_none {done : List Event} (sound : Ledger.Sound (bufferLedger done))
    (events : List Event) :
    untilAbort done events = none ↔ Ledger.Sound (bufferLedger (done ++ events)) := by
  induction events generalizing done with
  | nil =>
    rw [List.append_nil]
    exact iff_of_true rfl sound
  | cons e events ih =>
    rw [untilAbort, List.append_cons done e events]
    split_ifs with passes
    · exact ih ((sound_event sound e).mpr passes)
    · refine iff_of_false nofun fun whole => passes ((sound_event sound e).mp ?_)
      rw [bufferLedger_append] at whole
      exact whole.of_append

/-- What is done before the process is aborted. -/
theorem untilAbort_front {done events front : List Event} (sound : Ledger.Sound (bufferLedger done))
    (aborted : untilAbort done events = some front) :
    front <+: done ++ events ∧ Ledger.Sound (bufferLedger front) := by
  induction events generalizing done with
  | nil => cases aborted
  | cons e events ih =>
    rw [untilAbort] at aborted
    split_ifs at aborted with passes
    · have rest := ih ((sound_event sound e).mpr passes) aborted
      rwa [List.append_assoc] at rest
    · obtain rfl := Option.some.inj aborted
      exact ⟨List.prefix_append _ _, sound⟩

theorem Daemon.performed_iff : d.performed = .ok d ↔ Ledger.Sound d.ledger := by
  have none_ := @untilAbort_eq_none [] Ledger.sound_nil d.events
  rw [List.nil_append] at none_
  rw [Daemon.ledger, ← none_, performed]
  cases untilAbort [] d.events <;> simp

theorem Daemon.performed_error (broken : ¬ Ledger.Sound d.ledger) : ∃ d', d.performed = .error d' := by
  rcases done : d.performed with d' | d'
  · exact ⟨d', rfl⟩
  · exact absurd (Daemon.performed_iff.mp (by rw [done, Daemon.performed_ok done])) broken

theorem Daemon.performed_front (aborted : d.performed = .error d') :
    d'.events <+: d.events ∧ Ledger.Sound d'.ledger := by
  rw [performed] at aborted
  rcases done : untilAbort [] d.events with _ | front
  · rw [done] at aborted
    cases aborted
  · rw [done] at aborted
    obtain rfl := Except.error.inj aborted
    exact @untilAbort_front [] d.events front Ledger.sound_nil done

/-- What the process makes of a turn that is careful. -/
theorem takeTurn_careful {t : Turn} (settled : Settled d) (careful : Careful host ctx ⟨t, .all⟩ d) :
    takeTurn host ctx t d = .ok (turn host ctx t d) ∧
      ∀ d', turn host ctx t d = .receive d' → Settled d' := by
  have keeps := @Settled.turn host ctx ⟨t, .all⟩ d settled
  rw [allocTurn_all] at keeps
  unfold takeTurn
  rcases turned : turn host ctx t d with d' | ⟨rc, d'⟩ | _
  · rw [turned] at keeps
    have next : Settled d' := keeps.1 careful
    rw [Step.performed, Daemon.performed_iff.mpr next.sound]
    refine ⟨rfl, fun d'' same => ?_⟩
    rwa [← Step.receive.inj same]
  · rw [turned] at keeps
    rw [Step.performed, Daemon.performed_iff.mpr (keeps.mpr careful)]
    exact ⟨rfl, fun d'' same => by cases same⟩
  · exact ⟨rfl, fun d'' same => by cases same⟩

theorem takeTurn_careless {t : Turn} (settled : Settled d) (careless : ¬ Careful host ctx ⟨t, .all⟩ d) :
    ∃ d', takeTurn host ctx t d = .error d' := by
  have keeps := @Settled.turn host ctx ⟨t, .all⟩ d settled
  rw [allocTurn_all] at keeps
  unfold takeTurn
  rcases turned : turn host ctx t d with d' | ⟨rc, d'⟩ | _
  · rw [turned] at keeps
    obtain ⟨done, broken⟩ := Daemon.performed_error (keeps.2 careless)
    exact ⟨done, by rw [Step.performed, broken]; rfl⟩
  · rw [turned] at keeps
    obtain ⟨done, broken⟩ := Daemon.performed_error fun sound => careless (keeps.mp sound)
    exact ⟨done, by rw [Step.performed, broken]; rfl⟩
  · rw [turned] at keeps
    exact absurd keeps careless

theorem takeTurn_settled {t : Turn} (settled : Settled d) (taken : takeTurn host ctx t d = .ok (.receive d')) :
    Settled d' := by
  by_cases careful : Careful host ctx ⟨t, .all⟩ d
  · obtain ⟨whole, next⟩ := takeTurn_careful settled careful
    exact next d' (Except.ok.inj (whole.symm.trans taken))
  · obtain ⟨d₁, aborted⟩ := takeTurn_careless settled careful
    cases aborted.symm.trans taken

theorem answerRequest_grows {t : Turn} {r : Received}
    (answered : answerRequest host (some p) t r d = .receive d') : (d.keyBuffer p.keyOut).events <+: d'.events := by
  unfold answerRequest at answered
  dsimp only at answered
  split_ifs at answered with failed
  · rw [← Step.receive.inj answered]
    exact List.prefix_append _ _
  · rcases reply : p.reply with _ | data
    · rw [reply] at answered
      cases answered
    · rw [reply] at answered
      dsimp only at answered
      split at answered
      · rw [← Step.receive.inj answered]
        exact List.prefix_append _ _
      · rw [← Step.receive.inj answered]
        exact (List.prefix_append _ _).trans (List.prefix_append _ _)

/-- A request at which the process is aborted is not answered. -/
theorem takeTurn_silent {t : Turn} {r : Received} (settled : Settled d)
    (received : recvMiscdev host t.read t.stale = .ok r) (request : r.msgType = msgRequest)
    (aborted : takeTurn host ctx t d = .error d') : d'.sent <+: d.sent := by
  have noHelo : msgRequest ≠ msgHelo := by decide
  have noQuit : msgRequest ≠ msgQuit := by decide
  have turned : turn host ctx t d =
      answerRequest host (parsePacket ctx t.env (holding r.raw t.heap)) t r d.allocEmsg := by
    unfold turn handleRequest
    simp only [received, request, if_neg noHelo, if_neg noQuit, if_true]
  unfold takeTurn at aborted
  rw [turned] at aborted
  rcases parsed : parsePacket ctx t.env (holding r.raw t.heap) with _ | p
  · rw [parsed] at aborted
    cases aborted
  rw [← Mallocs.parsePacket_all] at parsed
  obtain ⟨d₁, answered, served⟩ := @answerRequest_served host d p t r (Mallocs.parsePacket_replied parsed)
  rw [← Mallocs.parsePacket_all, parsed, answered, Step.performed] at aborted
  rcases done : d₁.performed with d₂ | d₂
  · rw [done] at aborted
    obtain rfl := Except.error.inj aborted
    obtain ⟨front, sound⟩ := Daemon.performed_front done
    by_cases twice : p.keyOut = .released
    · have grows := answerRequest_grows answered
      rw [twice] at grows
      -- the second release of the output key is in front of the response
      rcases List.prefix_or_prefix_of_prefix front grows with short | long
      · have kept : d₂.sent <+: (d.allocEmsg.keyBuffer .released).sent := short.filterMap _
        rwa [Daemon.sent_keyBuffer, Daemon.sent_allocEmsg] at kept
      · have broken : ¬ Ledger.Sound (d.allocEmsg.keyBuffer .released).ledger := by
          have ledger : (d.allocEmsg.keyBuffer .released).ledger = d.allocEmsg.ledger ++
              [.alloc d.allocEmsg.nextHandle, .free d.allocEmsg.nextHandle] ++
                [.free d.allocEmsg.nextHandle] := by
            rw [Daemon.ledger_keyBuffer, List.append_assoc]
            rfl
          rw [ledger]
          exact Ledger.not_sound_of_freed (by simp)
        exact absurd (sound.of_prefix (long.filterMap _)) broken
    · have whole := Daemon.performed_iff.mpr (settled.served served twice).sound
      cases whole.symm.trans done
  · rw [done] at aborted
    cases aborted

/-- **When the process is aborted.**  A run from a state between turns is aborted by `free` exactly if one of its
turns is not careful. -/
theorem run_aborted_iff (settled : Settled d) (ts : List Turn) :
    (run host ctx d ts).exit = .aborted ↔ ¬ CarefulRun host ctx d (ts.map fun t => ⟨t, .all⟩) := by
  induction ts generalizing d with
  | nil => exact iff_of_false (fun aborted => by cases aborted) fun careless => careless trivial
  | cons t ts ih =>
    rw [run, List.map_cons, CarefulRun]
    by_cases careful : Careful host ctx ⟨t, .all⟩ d
    · obtain ⟨taken, next⟩ := takeTurn_careful settled careful
      rw [taken, allocTurn_all, and_iff_right careful]
      rcases turned : turn host ctx t d with d' | ⟨rc, d'⟩ | _
      · refine (ih (next d' turned)).trans (not_congr ⟨fun rest d'' same => ?_, fun rest => rest d' rfl⟩)
        rwa [← Step.receive.inj same]
      · exact iff_of_false (fun aborted => by cases aborted) fun careless => careless fun d'' same => by cases same
      · exact iff_of_false (fun aborted => by cases aborted) fun careless => careless fun d'' same => by cases same
    · obtain ⟨d', taken⟩ := takeTurn_careless settled careful
      rw [taken]
      exact iff_of_true rfl fun both => careful both.1

/-- **What the daemon does.**  Over every sequence of frames: each request is answered at most once and in
order, with its own sequence number and index, requests of type 64 and 66 exactly once; nothing is processed
after a QUIT; and the loop returns `-EIO` exactly at the ninth receive error since the start, the last greeting
or the last parsed request; all this exactly if every turn is careful, because another one aborts the process. -/
theorem daemon_conforms_iff (host : Words.ByteOrder) (ctx : List KeyMod) (ts : List Turn)
    (sound : ∀ t ∈ ts, t.Sound host) :
    (∃ processed, Conforms host ctx [] .init ts (runMiscdevDaemon host (.ok ctx) ts) processed) ↔
      CarefulRun host ctx .init (ts.map fun t => ⟨t, .all⟩) := by
  have aborts := @run_aborted_iff host ctx .init settled_init ts
  constructor
  · rintro ⟨processed, conforms⟩
    by_contra careless
    have aborted : (runMiscdevDaemon host (.ok ctx) ts).exit = .aborted := aborts.mpr careless
    rcases conforms.ends with ⟨waiting, -⟩ | ends | ends
    · exact nomatch aborted.symm.trans waiting
    · exact nomatch aborted.symm.trans ends
    · exact nomatch aborted.symm.trans ends
  · intro careful
    exact run_conforms sound [] errorsSince_nil.symm (Nat.zero_le _) fun aborted => aborts.mp aborted careful

/-- A turn in which the read fails. -/
def Turn.failing : Turn := ⟨none, fun _ => 0, fun _ => 0, .empty⟩

/-- A request for a key, which is decrypted to a given number of bytes. -/
def Turn.decrypting (outSize : ℕ) : Turn :=
  ⟨some ([102, 0, 0, 0, 7, 30] ++ keyRequest), fun _ => 0, fun _ => 0,
    .answering opensslToken 128 outSize⟩

theorem Turn.sound_failing : Turn.failing.Sound .little :=
  ⟨fun _ received => (nomatch received), fun _ found => (nomatch found)⟩

theorem Turn.sound_decrypting (outSize : ℕ) : (Turn.decrypting outSize).Sound .little := by
  refine ⟨fun r received _ => ?_, fun _ _ => rfl⟩
  have same : recvMiscdev .little (some ([102, 0, 0, 0, 7, 30] ++ keyRequest)) (fun _ => 0) =
      .ok ⟨102, 7, keyRequest⟩ := by decide
  obtain rfl := Except.ok.inj (same.symm.trans received)
  exact declaredFits_key

theorem Turn.sound_greeting : (Turn.ofFrame [100, 0, 0, 0, 0]).Sound .little :=
  sound_ofFrame (r := ⟨100, 0, []⟩) (by decide) fun request => absurd request (by decide)

/-- A read that fails, a greeting, a request whose key is decrypted to 16 bytes, and a QUIT. -/
def sessionTurns : List Turn :=
  [.failing, .ofFrame [100, 0, 0, 0, 0], .decrypting 16, .ofFrame [101, 0, 0, 0, 0]]

theorem daemon_conforms_session : ∃ processed, Conforms .little [opensslModule] [] .init sessionTurns
    (runMiscdevDaemon .little (.ok [opensslModule]) sessionTurns) processed := by
  have alive : (run .little [opensslModule] .init sessionTurns).exit ≠ .aborted := by decide
  refine (daemon_conforms_iff .little [opensslModule] sessionTurns ?_).mpr
    (not_not.mp (mt (run_aborted_iff settled_init sessionTurns).mpr alive))
  simp only [sessionTurns, List.mem_cons, List.not_mem_nil, or_false, forall_eq_or_imp, forall_eq]
  exact ⟨Turn.sound_failing, Turn.sound_greeting, Turn.sound_decrypting 16,
    sound_ofFrame (r := ⟨101, 0, []⟩) (by decide) fun request => absurd request (by decide)⟩

/-- A greeting and a read that fails abort the process, so that the request behind them is not answered; and so
does a key that is decrypted to 65 bytes, before its request is answered. -/
theorem daemon_aborts :
    (¬ ∀ (host : Words.ByteOrder) (ctx : List KeyMod) (ts : List Turn), (∀ t ∈ ts, t.Sound host) →
      ∃ processed, Conforms host ctx [] .init ts (runMiscdevDaemon host (.ok ctx) ts) processed) ∧
    (∀ t ∈ [Turn.ofFrame [100, 0, 0, 0, 0], .failing, .decrypting 16], t.Sound .little) ∧
    (runMiscdevDaemon .little (.ok [opensslModule])
      [.ofFrame [100, 0, 0, 0, 0], .failing, .decrypting 16]).exit = .aborted ∧
    (runMiscdevDaemon .little (.ok [opensslModule])
      [.ofFrame [100, 0, 0, 0, 0], .failing, .decrypting 16]).daemon.sent = [] ∧
    (runMiscdevDaemon .little (.ok [opensslModule]) [.decrypting 65]).exit = .aborted ∧
    (runMiscdevDaemon .little (.ok [opensslModule]) [.decrypting 65]).daemon.events =
      [.recvAlloc 0, .keyAlloc 1, .free (some 1)] := by
  have sound : ∀ t ∈ [Turn.ofFrame [100, 0, 0, 0, 0], .failing, .decrypting 16], t.Sound .little := by
    simp only [List.mem_cons, List.not_mem_nil, or_false, forall_eq_or_imp, forall_eq]
    exact ⟨Turn.sound_greeting, Turn.sound_failing, Turn.sound_decrypting 16⟩
  have aborted : (runMiscdevDaemon .little (.ok [opensslModule])
      [.ofFrame [100, 0, 0, 0, 0], .failing, .decrypting 16]).exit = .aborted := by decide
  refine ⟨fun conforms => ?_, sound, aborted, by decide, by decide, by decide⟩
  obtain ⟨processed, conforms⟩ := conforms .little [opensslModule] _ sound
  rcases conforms.ends with ⟨waiting, -⟩ | ends | ends
  · exact nomatch aborted.symm.trans waiting
  · exact nomatch aborted.symm.trans ends
  · exact nomatch aborted.symm.trans ends

/-- **The ownership of buffers.**  Each is released at most once, and what is released was handed out
before and is still live. -/
structure BuffersOwned (events : List Event) : Prop where
  once : ∀ h, events.count (.free (some h)) ≤ 1
  live : ∀ pre post h, events = pre ++ .free (some h) :: post →
    (.recvAlloc h ∈ pre ∨ .keyAlloc h ∈ pre) ∧ .free (some h) ∉ pre

theorem entry_eq_alloc {e : Event} {h : ℕ} :
    e.entry = some (.alloc h) ↔ e = .recvAlloc h ∨ e = .keyAlloc h := by
  rcases e with k | k | (_ | k) | frame <;> simp [Event.entry]

theorem entry_eq_free {e : Event} {h : ℕ} : e.entry = some (.free h) ↔ e = .free (some h) := by
  rcases e with k | k | (_ | k) | frame <;> simp [Event.entry]

theorem mem_bufferLedger {events : List Event} {entry : Ledger.Entry ℕ} :
    entry ∈ bufferLedger events ↔ ∃ e ∈ events, e.entry = some entry := List.mem_filterMap

theorem bufferLedger_live {events : List Event} {h : ℕ} : Ledger.Live (bufferLedger events) h ↔
    (.recvAlloc h ∈ events ∨ .keyAlloc h ∈ events) ∧ .free (some h) ∉ events := by
  unfold Ledger.Live
  simp only [mem_bufferLedger, entry_eq_alloc, entry_eq_free, exists_eq_right, and_or_left, exists_or]

theorem count_bufferLedger (events : List Event) (h : ℕ) :
    (bufferLedger events).count (.free h) = events.count (.free (some h)) := by
  rw [List.count, bufferLedger, List.countP_filterMap, List.count]
  refine List.countP_congr fun e _ => ?_
  rw [beq_iff_eq, ← entry_eq_free]
  cases e.entry <;> simp

/-- The ledger says all about the ownership. -/
theorem buffersOwned_iff_sound {events : List Event} :
    BuffersOwned events ↔ Ledger.Sound (bufferLedger events) := by
  constructor
  · intro owned pre post h split
    obtain ⟨before, after, rfl, rfl, rest⟩ := List.filterMap_eq_append_iff.mp split
    obtain ⟨skipped, e, left, rfl, none_, isFree, -⟩ := List.filterMap_eq_cons_iff.mp rest
    obtain rfl := entry_eq_free.mp isFree
    have live := owned.live (before ++ skipped) left h (List.append_assoc _ _ _).symm
    have same : bufferLedger (before ++ skipped) = before.filterMap Event.entry := by
      rw [bufferLedger, List.filterMap_append, List.filterMap_eq_nil_iff.mpr none_, List.append_nil]
    rw [← same]
    exact bufferLedger_live.mpr live
  · intro sound
    refine ⟨fun h => ?_, ?_⟩
    · rw [← count_bufferLedger]
      exact sound.count_free_le h
    · rintro pre post h rfl
      refine bufferLedger_live.mp (sound (bufferLedger pre) (bufferLedger post) h ?_)
      rw [bufferLedger, List.filterMap_append]
      rfl

/-- **When every buffer is released only once.**  Over all runs of the daemon, each message and each
output key is released at most once and only while it is live, exactly if all turns are careful. -/
theorem buffersOwned_iff (host : Words.ByteOrder) (registered : Except ℤ (List KeyMod))
    (ts : List AllocTurn) : BuffersOwned (allocDaemon host registered ts).2.events ↔
      ∀ ctx, registered = .ok ctx → CarefulRun host ctx .init ts := by
  rw [buffersOwned_iff_sound]
  rcases registered with rc | ctx
  · exact iff_of_true Ledger.sound_nil fun ctx same => nomatch same
  · refine (allocRun_sound settled_init ts).trans ?_
    exact ⟨fun careful ctx' same => Except.ok.inj same ▸ careful, fun careful => careful ctx rfl⟩

/-- A frame that cannot be read after a greeting, and a decrypted key of 65 bytes. -/
theorem buffersOwned_fails :
    (¬ ∀ (host : Words.ByteOrder) (registered : Except ℤ (List KeyMod)) (ts : List AllocTurn),
      BuffersOwned (allocDaemon host registered ts).2.events) ∧
    (allocDaemon .little (.ok []) [⟨.ofFrame [100, 0, 0, 0, 0], .all⟩,
      ⟨⟨none, fun _ => 0, fun _ => 0, .empty⟩, .all⟩]).2.events =
        [.recvAlloc 0, .free (some 0), .free (some 0)] ∧
    (allocDaemon .little (.ok [opensslModule]) [⟨⟨some [102, 0, 0, 0, 7, 11, 1, 0, 0, 0, 3, 0, 0, 0, 64, 0, 0],
      fun _ => 0, fun _ => 0, .answering opensslToken 128 65⟩, .all⟩]).2.events =
        [.recvAlloc 0, .keyAlloc 1, .free (some 1), .free (some 1),
          .write [103, 0, 0, 0, 7, 10, 1, 0, 0, 0, 2, 0, 0, 0, 65, 255], .free (some 0)] := by
  have greeted : (allocDaemon .little (.ok []) [⟨.ofFrame [100, 0, 0, 0, 0], .all⟩,
      ⟨⟨none, fun _ => 0, fun _ => 0, .empty⟩, .all⟩]).2.events =
        [.recvAlloc 0, .free (some 0), .free (some 0)] := by decide
  refine ⟨fun owned => ?_, greeted, by decide⟩
  have once := (owned .little (.ok []) [⟨.ofFrame [100, 0, 0, 0, 0], .all⟩,
      ⟨⟨none, fun _ => 0, fun _ => 0, .empty⟩, .all⟩]).once 0
  rw [greeted] at once
  exact absurd once (by decide)

end Ecryptfs
