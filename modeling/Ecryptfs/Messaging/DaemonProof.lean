import Ecryptfs.Messaging.Daemon

/-!
# Runs of the daemon

What the daemon writes and when it returns, over all sequences of frames in which `free` does not abort it:
`Conforms` matches the turns that were processed with the frames that answer them, in order, and ties the
return of the loop to a QUIT or to the ninth receive error in a row without a greeting or a parsed request.
-/

namespace Ecryptfs

open Memory

section

variable (host : Words.ByteOrder) (ctx : List KeyMod)

/-! ## What a turn is -/

/-- A frame that could not be received. -/
def IsError (t : Turn) : Prop := ∃ rc, recvMiscdev host t.read t.stale = .error rc

def IsQuit (t : Turn) : Prop :=
  ∃ r, recvMiscdev host t.read t.stale = .ok r ∧ r.msgType = msgQuit

/-- A greeting, or a request that is successfully parsed. -/
def Resets (t : Turn) : Prop :=
  ∃ r, recvMiscdev host t.read t.stale = .ok r ∧
    (r.msgType = msgHelo ∨ r.msgType = msgRequest ∧
      ∃ p, parsePacket ctx t.env (holding r.raw t.heap) = some p ∧ p.rc = 0)

open Classical in
/-- The receive errors since the start, or since the last greeting or successfully parsed request. -/
noncomputable def errorsSince (history : List Turn) : ℕ :=
  (history.reverse.takeWhile fun t => ¬ Resets host ctx t).countP fun t => IsError host t

/-- The first data byte of a received message. -/
def firstByte (r : Received) : UInt8 := r.raw.getD messageHeaderSize 0

/-- A response to the request `r`: its sequence number, its index, and the tag for its type. -/
def IsResponse (r : Received) (frame : List UInt8) : Prop :=
  ∃ m : Message, m.index = Words.load host r.raw ∧
    m.data.head? = some (replyTag (firstByte r)) ∧ ∀ beyond,
      sendMiscdev host (some (holding (m.bytes host) beyond)) msgResponse r.msgSeq = .ok frame

/-- The frames that may answer a turn: at most one response for a request, exactly one if its first
byte is 64 or 66, and none for anything else. -/
def Answers (t : Turn) (frames : List (List UInt8)) : Prop :=
  match recvMiscdev host t.read t.stale with
  | .error _ => frames = []
  | .ok r =>
    if r.msgType = msgRequest then
      frames.length ≤ 1 ∧
        (firstByte r = tag64Packet ∨ firstByte r = tag66Packet → frames.length = 1) ∧
        ∀ frame ∈ frames, IsResponse host r frame
    else frames = []

/-- What is assumed of a turn: the declared lengths of a request lie inside it, and a token is read
for every key that is found. -/
structure Turn.Sound (t : Turn) : Prop where
  fits : ∀ r, recvMiscdev host t.read t.stale = .ok r → r.msgType = msgRequest →
    DeclaredFits r.raw
  tokens : ∀ d, t.env.requestKey d = true → (t.env.readAlloc d).isSome

end

variable {host : Words.ByteOrder} {ctx : List KeyMod} {d : Daemon} {t : Turn} {r : Received}

namespace Daemon

@[simp] theorem sent_allocEmsg : d.allocEmsg.sent = d.sent := by
  simp [allocEmsg, log, sent]

@[simp] theorem sent_freeEmsg : d.freeEmsg.sent = d.sent := by
  simp [freeEmsg, log, sent]

@[simp] theorem sent_keyBuffer (b : KeyBuffer) : (d.keyBuffer b).sent = d.sent := by
  cases b <;> simp [keyBuffer, log, sent]

@[simp] theorem sent_errorCount (n : ℕ) : ({ d with errorCount := n } : Daemon).sent = d.sent := rfl

@[simp] theorem sent_log_write (frame : List UInt8) :
    (d.log [.write frame]).sent = d.sent ++ [frame] := by
  simp [log, sent]

@[simp] theorem errorCount_allocEmsg : d.allocEmsg.errorCount = d.errorCount := rfl

@[simp] theorem errorCount_freeEmsg : d.freeEmsg.errorCount = d.errorCount := rfl

@[simp] theorem errorCount_keyBuffer (b : KeyBuffer) :
    (d.keyBuffer b).errorCount = d.errorCount := by
  cases b <;> rfl

end Daemon

/-! ## One request -/

/-- A message whose declared lengths lie inside it has a header and a type byte. -/
theorem DeclaredFits.length {raw : List UInt8} (fits : DeclaredFits raw) : 10 ≤ raw.length := by
  have first := fits.1
  have pos := packetLengthReads_pos fun k => holding raw (fun _ => 0) (9 + k)
  omega

theorem packetType_eq (fits : DeclaredFits r.raw) (heap : Bytes) :
    (decodePacket (holding r.raw heap)).packetType = firstByte r := by
  have type : (decodePacket (holding r.raw heap)).packetType = holding r.raw heap 8 := by
    unfold decodePacket
    simp only
    split
    · rfl
    · split <;> rfl
  have := fits.length
  rw [type, holding_of_lt (by omega)]
  rfl

theorem index_eq (fits : DeclaredFits r.raw) (heap : Bytes) :
    Words.load host (slice (holding r.raw heap) 0 4) = Words.load host r.raw := by
  have := fits.length
  rw [slice_holding_inside (by omega), List.drop_zero, Words.load_take]

/-- A reply whose data is short enough is sent, and is a response. -/
theorem isResponse_of_reply (host : Words.ByteOrder) {data : List UInt8}
    (head : data.head? = some (replyTag (firstByte r)))
    (small : data.length ≤ maxEncryptedKeyBytes + 4) (fresh : Bytes) :
    ∃ frame, sendMiscdev host (some (holding (Words.store host (Words.load host r.raw) ++
        (Words.store host (UInt32.ofNat data.length) ++ data)) fresh)) msgResponse r.msgSeq =
          .ok frame ∧ IsResponse host r frame := by
  unfold maxEncryptedKeyBytes at small
  let m : Message := ⟨Words.load host r.raw, data, by omega⟩
  have size : (m.bytes host).length < 65536 := by
    rw [m.length_bytes]
    show 8 + data.length < 65536
    omega
  obtain ⟨len, written, -⟩ := writePacketLength_some size
  have send : ∀ beyond, sendMiscdev host (some (holding (m.bytes host) beyond)) msgResponse
      r.msgSeq = .ok (msgResponse :: Words.store .big r.msgSeq ++ (len ++ m.bytes host)) := by
    intro beyond
    rw [sendMiscdev_message, written]
    rfl
  exact ⟨_, send fresh, m, rfl, head, send⟩

/-- Handling a request: the loop goes on, with a response if the packet was parsed. -/
theorem handleRequest_cases (sound : t.Sound host)
    (received : recvMiscdev host t.read t.stale = .ok r) (request : r.msgType = msgRequest) :
    ∃ d' frames, handleRequest host ctx t r d = .receive d' ∧ d'.sent = d.sent ++ frames ∧
      Answers host t frames ∧
      (Resets host ctx t ∧ d'.errorCount = 0 ∨
        ¬ Resets host ctx t ∧ d'.errorCount = d.errorCount) := by
  have fits := sound.fits r received request
  obtain ⟨p, parsed, replies⟩ := parsePacket_replies ctx (holding r.raw t.heap) sound.tokens
  rw [packetType_eq fits] at replies
  unfold handleRequest answerRequest
  simp only [parsed, index_eq fits]
  rcases replies with ⟨zero, data, reply, head, small⟩ | ⟨failed, not64, not66⟩
  · obtain ⟨frame, sent, response⟩ := isResponse_of_reply host head small t.env.fresh
    simp only [zero, ne_eq, not_true_eq_false, if_false, reply, sent]
    refine ⟨_, [frame], rfl, by simp, ?_, .inl ⟨?_, rfl⟩⟩
    · simp only [Answers, received, if_pos request]
      refine ⟨le_rfl, fun _ => rfl, fun f hf => ?_⟩
      rwa [List.mem_singleton.mp hf]
    · exact ⟨r, received, .inr ⟨request, p, parsed, zero⟩⟩
  · simp only [failed, ne_eq, not_false_eq_true, if_true]
    refine ⟨_, [], rfl, by simp, ?_, .inr ⟨?_, by simp⟩⟩
    · simp only [Answers, received, if_pos request]
      refine ⟨Nat.zero_le _, ?_, by simp⟩
      rintro (is64 | is66)
      · exact absurd is64 not64
      · exact absurd is66 not66
    · rintro ⟨r', received', greeting | ⟨-, p', parsed', zero⟩⟩
      · obtain rfl := Except.ok.inj (received.symm.trans received')
        rw [request] at greeting
        exact absurd greeting (by decide)
      · obtain rfl := Except.ok.inj (received.symm.trans received')
        obtain rfl := Option.some.inj (parsed.symm.trans parsed')
        exact failed zero

/-! ## One turn -/

/-- What a turn does: it goes on, having written the answers; or it is the ninth error, or a QUIT. -/
theorem turn_cases (sound : t.Sound host) (below : d.errorCount ≤ msgErrorCountThreshold) :
    (∃ d' frames, turn host ctx t d = .receive d' ∧ d'.sent = d.sent ++ frames ∧
      Answers host t frames ∧ ¬ IsQuit host t ∧
      d'.errorCount ≤ msgErrorCountThreshold ∧
      (Resets host ctx t ∧ d'.errorCount = 0 ∨
        ¬ Resets host ctx t ∧ IsError host t ∧ d'.errorCount = d.errorCount + 1 ∨
        ¬ Resets host ctx t ∧ ¬ IsError host t ∧ d'.errorCount = d.errorCount)) ∨
    (∃ d', turn host ctx t d = .out (-eio) d' ∧ d'.sent = d.sent ∧ Answers host t [] ∧
      IsError host t ∧ ¬ IsQuit host t ∧ ¬ Resets host ctx t ∧
      d.errorCount = msgErrorCountThreshold) ∨
    (∃ d', turn host ctx t d = .out 0 d' ∧ d'.sent = d.sent ∧ Answers host t [] ∧
      ¬ IsError host t ∧ IsQuit host t ∧ ¬ Resets host ctx t) := by
  unfold turn
  rcases received : recvMiscdev host t.read t.stale with rc | r
  · have noQuit : ¬ IsQuit host t := by
      rintro ⟨r, h, -⟩
      rw [received] at h
      cases h
    have noReset : ¬ Resets host ctx t := by
      rintro ⟨r, h, -⟩
      rw [received] at h
      cases h
    have silent : Answers host t [] := by simp [Answers, received]
    simp only [receiveError]
    split_ifs with ninth
    · refine .inr (.inl ⟨_, rfl, rfl, silent, ⟨rc, received⟩, noQuit, noReset, ?_⟩)
      omega
    · refine .inl ⟨_, [], rfl, by simp, silent, noQuit, by simpa using not_lt.mp ninth, ?_⟩
      exact .inr (.inl ⟨noReset, ⟨rc, received⟩, rfl⟩)
  · have noError : ¬ IsError host t := by
      rintro ⟨rc, h⟩
      rw [received] at h
      cases h
    have isQuit : IsQuit host t ↔ r.msgType = msgQuit := by simp [IsQuit, received]
    have isReset : Resets host ctx t ↔ (r.msgType = msgHelo ∨ r.msgType = msgRequest ∧
        ∃ p, parsePacket ctx t.env (holding r.raw t.heap) = some p ∧ p.rc = 0) := by
      simp [Resets, received]
    have silent : r.msgType ≠ msgRequest → Answers host t [] := by
      intro other
      simp [Answers, received, other]
    simp only
    split_ifs with helo quit request
    · refine .inl ⟨_, [], rfl, by simp, silent (by rw [helo]; decide), ?_, Nat.zero_le _,
        .inl ⟨isReset.mpr (.inl helo), rfl⟩⟩
      rw [isQuit, helo]
      decide
    · refine .inr (.inr ⟨_, rfl, by simp, silent (by rw [quit]; decide), noError, isQuit.mpr quit, ?_⟩)
      rw [isReset, quit]
      simp [msgQuit, msgHelo, msgRequest]
    · obtain ⟨d', frames, went, sent, answers, count⟩ :=
        @handleRequest_cases host ctx d.allocEmsg t r sound received request
      refine .inl ⟨d', frames, went, by simpa using sent, answers, mt isQuit.mp quit, ?_, ?_⟩
      · rcases count with ⟨-, zero⟩ | ⟨-, same⟩
        · omega
        · rw [same]
          exact below
      · rcases count with ⟨resets, zero⟩ | ⟨noReset, same⟩
        · exact .inl ⟨resets, zero⟩
        · exact .inr (.inr ⟨noReset, noError, same⟩)
    · refine .inl ⟨_, [], rfl, by simp, silent request, mt isQuit.mp quit, below, ?_⟩
      refine .inr (.inr ⟨?_, noError, rfl⟩)
      rw [isReset]
      rintro (h | ⟨h, -⟩)
      · exact helo h
      · exact request h

/-! ## The error count -/

theorem errorsSince_nil : errorsSince host ctx [] = 0 := by simp [errorsSince]

theorem errorsSince_reset (history : List Turn) (resets : Resets host ctx t) :
    errorsSince host ctx (history ++ [t]) = 0 := by
  simp [errorsSince, resets]

theorem errorsSince_error (history : List Turn) (noReset : ¬ Resets host ctx t)
    (error : IsError host t) :
    errorsSince host ctx (history ++ [t]) = errorsSince host ctx history + 1 := by
  simp [errorsSince, noReset, error]

theorem errorsSince_other (history : List Turn) (noReset : ¬ Resets host ctx t)
    (noError : ¬ IsError host t) :
    errorsSince host ctx (history ++ [t]) = errorsSince host ctx history := by
  simp [errorsSince, noReset, noError]

/-! ## Runs -/

/-- What holds of a run that started after the turns `before` and processed the turns `processed`:
it took them from the front of its input, it wrote the answers to them in their order, a QUIT is the
last turn it processed and makes it return zero, it only stops waiting to return, and it returns
`-EIO` exactly at the ninth error. -/
structure Conforms (host : Words.ByteOrder) (ctx : List KeyMod) (before : List Turn) (d : Daemon)
    (ts : List Turn) (r : Run) (processed : List Turn) : Prop where
  input : ts = processed ++ r.rest
  answers : ∃ answers, List.Forall₂ (Answers host) processed answers ∧
    r.daemon.sent = d.sent ++ answers.flatten
  quit_last : ∀ pre t post, processed = pre ++ t :: post → IsQuit host t → post = []
  quit_iff : (∃ t ∈ processed, IsQuit host t) ↔ r.exit = .returned 0
  ends : r.exit = .waiting ∧ r.rest = [] ∨ r.exit = .returned 0 ∨ r.exit = .returned (-eio)
  eio_iff : r.exit = .returned (-eio) ↔
    errorsSince host ctx (before ++ processed) = msgErrorCountThreshold + 1

/-- A turn that goes on, followed by a run. -/
theorem Conforms.cons {before ts processed : List Turn} {d' : Daemon} {res : Run}
    {frames : List (List UInt8)} (conf : Conforms host ctx (before ++ [t]) d' ts res processed)
    (sent : d'.sent = d.sent ++ frames) (answered : Answers host t frames)
    (noQuit : ¬ IsQuit host t) : Conforms host ctx before d (t :: ts) res (t :: processed) where
  input := by rw [List.cons_append, ← conf.input]
  answers := by
    obtain ⟨answers, match_, written⟩ := conf.answers
    refine ⟨frames :: answers, .cons answered match_, ?_⟩
    rw [written, sent, List.flatten_cons, List.append_assoc]
  quit_last := by
    intro pre q post split quit
    cases pre with
    | nil =>
      obtain ⟨rfl, -⟩ := List.cons.inj split
      exact absurd quit noQuit
    | cons p pre => exact conf.quit_last pre q post (List.cons.inj split).2 quit
  quit_iff := by
    rw [← conf.quit_iff]
    simp [noQuit]
  ends := conf.ends
  eio_iff := by
    rw [conf.eio_iff, List.append_assoc, List.singleton_append]

/-- A turn after which the loop returns. -/
theorem Conforms.last {before : List Turn} {d' : Daemon} {rc : ℤ} (ts : List Turn)
    (sent : d'.sent = d.sent) (answered : Answers host t [])
    (quit_iff : IsQuit host t ↔ rc = 0) (ends : rc = 0 ∨ rc = -eio)
    (eio_iff : rc = -eio ↔
      errorsSince host ctx (before ++ [t]) = msgErrorCountThreshold + 1) :
    Conforms host ctx before d (t :: ts) ⟨.returned rc, d', ts⟩ [t] where
  input := rfl
  answers := ⟨[[]], .cons answered .nil, by simp [sent]⟩
  quit_last := by
    intro pre q post split _
    have := congrArg List.length split
    simp only [List.length_append, List.length_cons, List.length_nil] at this
    exact List.length_eq_zero_iff.mp (by omega)
  quit_iff := by simpa using quit_iff
  ends := by simpa using ends
  eio_iff := by simpa using eio_iff

theorem Daemon.performed_ok {d' : Daemon} (done : d.performed = .ok d') : d' = d := by
  unfold performed at done
  split at done
  · cases done
  · exact (Except.ok.inj done).symm

/-- A step that is not aborted is done as it is. -/
theorem Step.performed_ok {step step' : Step} (done : step.performed = .ok step') : step' = step := by
  cases step with
  | receive d =>
    rcases whole : d.performed with d' | d'
    · rw [performed, whole] at done
      cases done
    · rw [performed, whole, Daemon.performed_ok whole] at done
      exact (Except.ok.inj done).symm
  | out rc d =>
    rcases whole : d.performed with d' | d'
    · rw [performed, whole] at done
      cases done
    · rw [performed, whole, Daemon.performed_ok whole] at done
      exact (Except.ok.inj done).symm
  | fault => exact (Except.ok.inj done).symm

/-- Runs of the loop that are not aborted conform, from every state whose error count is right. -/
theorem run_conforms {ts : List Turn} (sound : ∀ t ∈ ts, t.Sound host) (before : List Turn)
    (count : d.errorCount = errorsSince host ctx before)
    (below : d.errorCount ≤ msgErrorCountThreshold) (alive : (run host ctx d ts).exit ≠ .aborted) :
    ∃ processed, Conforms host ctx before d ts (run host ctx d ts) processed := by
  -- the invariant is the error count: it is what the history says, and at most the threshold
  induction ts generalizing d before with
  | nil =>
    refine ⟨[], rfl, ⟨[], .nil, by simp [run]⟩, by simp, by simp [run], .inl ⟨rfl, rfl⟩, ?_⟩
    rw [List.append_nil, ← count]
    simp only [run, reduceCtorEq, false_iff]
    omega
  | cons t ts ih =>
    have soundT := sound t List.mem_cons_self
    have soundTs : ∀ u ∈ ts, u.Sound host := fun u hu => sound u (List.mem_cons_of_mem t hu)
    rw [run] at alive ⊢
    rcases taken : takeTurn host ctx t d with d' | step
    · rw [taken] at alive
      exact absurd rfl alive
    have whole : step = turn host ctx t d := Step.performed_ok taken
    rw [taken, whole] at alive
    rw [whole]
    rcases @turn_cases host ctx d t soundT below with
      ⟨d', frames, went, sent, answers, noQuit, below', counted⟩ |
      ⟨d', went, sent, answers, error, noQuit, noReset, full⟩ |
      ⟨d', went, sent, answers, noError, quit, noReset⟩
    · have count' : d'.errorCount = errorsSince host ctx (before ++ [t]) := by
        rcases counted with ⟨resets, zero⟩ | ⟨noReset, error, more⟩ | ⟨noReset, noError, same⟩
        · rw [zero, errorsSince_reset _ resets]
        · rw [more, errorsSince_error _ noReset error, count]
        · rw [same, errorsSince_other _ noReset noError, count]
      rw [went] at alive ⊢
      obtain ⟨processed, conf⟩ := ih soundTs (before ++ [t]) count' below' alive
      exact ⟨t :: processed, conf.cons sent answers noQuit⟩
    · rw [went]
      refine ⟨[t], .last ts sent answers (by simp [noQuit, eio]) (.inr rfl) ?_⟩
      rw [errorsSince_error _ noReset error, ← count, full]
      simp
    · rw [went]
      refine ⟨[t], .last ts sent answers (by simp [quit]) (.inl rfl) ?_⟩
      rw [errorsSince_other _ noReset noError, ← count]
      simp only [eio, Int.reduceNeg, zero_eq_neg, OfNat.ofNat_ne_zero, false_iff]
      omega

/-- A turn with the given frame, and no key in the keyring. -/
def Turn.ofFrame (frame : List UInt8) : Turn := ⟨some frame, fun _ => 0, fun _ => 0, .empty⟩

theorem sound_ofFrame {frame : List UInt8} {r : Received}
    (received : recvMiscdev .little (some frame) (fun _ => 0) = .ok r)
    (fits : r.msgType = msgRequest → DeclaredFits r.raw) :
    (Turn.ofFrame frame).Sound .little where
  fits r' received' request := by
    obtain rfl := Except.ok.inj (received.symm.trans received')
    exact fits request
  tokens _ found := by cases found

end Ecryptfs
