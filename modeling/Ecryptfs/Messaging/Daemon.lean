import Ecryptfs.Lib.Ledger
import Ecryptfs.Messaging.Packets

/-!
# The daemon

`runMiscdevDaemon` receives frames one after the other and answers requests.  A turn of its loop has
what `read` returns and what the keyring and the key modules answer; the daemon keeps the pointer
`emsg` and the number of receive errors.  Every allocation has a handle, and the trace of the daemon
records when message and key buffers are handed out and freed, and the frames it writes.

`turn` is the body of the loop as it is written.  `takeTurn` is what the process does of it: where a buffer
is freed that is not live, `free` aborts the process, and nothing behind it is done.
-/

namespace Ecryptfs

open Memory

def msgErrorCountThreshold : ℕ := 8

/-- One turn of the loop: what `read` and the stale buffer hold, the memory behind the message, and
the answers of the keyring and the key modules. -/
structure Turn where
  read : Option (List UInt8)
  stale : Bytes
  heap : Bytes
  env : KeyEnv

/-- What the daemon does to the outside and to its buffers. -/
inductive Event where
  | recvAlloc (handle : ℕ)
  | keyAlloc (handle : ℕ)
  | free (handle : Option ℕ)
  | write (frame : List UInt8)
  deriving DecidableEq

/-- What an event means for the buffers. -/
def Event.entry : Event → Option (Ledger.Entry ℕ)
  | .recvAlloc h | .keyAlloc h => some (.alloc h)
  | .free (some h) => some (.free h)
  | .free none | .write _ => none

/-- What is handed out and released, in order. -/
def bufferLedger (events : List Event) : List (Ledger.Entry ℕ) := events.filterMap Event.entry

/-- What is done of some events after others, if `free` aborts the process at one of them: those in front of the
first release of a buffer that is not live. -/
def untilAbort (done : List Event) : List Event → Option (List Event)
  | [] => none
  | e :: events =>
    if ∀ h ∈ e.entry.bind Ledger.Entry.freed, Ledger.Live (bufferLedger done) h then
      untilAbort (done ++ [e]) events
    else some done

/-- The variables of `ecryptfs_run_miscdev_daemon`, the next free handle, and what was done. -/
structure Daemon where
  emsg : Option ℕ
  nextHandle : ℕ
  errorCount : ℕ
  events : List Event

namespace Daemon

def init : Daemon := ⟨none, 0, 0, []⟩

def log (d : Daemon) (events : List Event) : Daemon := { d with events := d.events ++ events }

/-- A message buffer handed out by `ecryptfs_recv_miscdev`. -/
def allocEmsg (d : Daemon) : Daemon :=
  { d with emsg := some d.nextHandle, nextHandle := d.nextHandle + 1 }.log [.recvAlloc d.nextHandle]

/-- The label `free_emsg`; the pointer keeps its value. -/
def freeEmsg (d : Daemon) : Daemon := d.log [.free d.emsg]

/-- The key buffer of a request: freed inside the key module call or not, and freed at the end of
`parse_packet`. -/
def keyBuffer (d : Daemon) : KeyBuffer → Daemon
  | .null => d.log [.free none]
  | .live => { d with nextHandle := d.nextHandle + 1 }.log
      [.keyAlloc d.nextHandle, .free (some d.nextHandle)]
  | .released => { d with nextHandle := d.nextHandle + 1 }.log
      [.keyAlloc d.nextHandle, .free (some d.nextHandle), .free (some d.nextHandle)]

/-- The daemon as its process leaves it: `free` has aborted it, or everything was done. -/
def performed (d : Daemon) : Except Daemon Daemon :=
  match untilAbort [] d.events with
  | some done => .error { d with events := done }
  | none => .ok d

/-- The frames written so far. -/
def sent (d : Daemon) : List (List UInt8) :=
  d.events.filterMap fun
    | .write frame => some frame
    | _ => none

end Daemon

/-- How a turn goes on: `goto receive`, `goto out`, or the use of a null pointer. -/
inductive Step where
  | receive (d : Daemon)
  | out (rc : ℤ) (d : Daemon)
  | fault

/-- What the process does of a step; an error is the daemon that `free` has aborted. -/
def Step.performed : Step → Except Daemon Step
  | .receive d => d.performed.map .receive
  | .out rc d => d.performed.map (.out rc)
  | .fault => .ok .fault

/-- How a run stands: waiting for the next frame, returned, stopped by a null pointer, or aborted by `free`. -/
inductive Exit where
  | waiting
  | returned (rc : ℤ)
  | fault
  | aborted
  deriving DecidableEq

structure Run where
  exit : Exit
  daemon : Daemon
  rest : List Turn

section

variable (host : Words.ByteOrder) (ctx : List KeyMod)

/-- The part of a turn that handles a request, from the result of `parse_packet` on: the response, if it is
zero.  A failure of the `write` is only logged. -/
def answerRequest (parsed : Option Parsed) (t : Turn) (r : Received) (d : Daemon) : Step :=
  let emsg := holding r.raw t.heap
  match parsed with
  | none => .fault
  | some p =>
    let d := d.keyBuffer p.keyOut
    if p.rc ≠ 0 then .receive d.freeEmsg
    else match p.reply with
      | none => .fault
      | some data =>
        let index := Words.load host (slice emsg 0 4)
        let reply := Words.store host index ++
          (Words.store host (UInt32.ofNat data.length) ++ data)
        match sendMiscdev host (some (holding reply t.env.fresh)) msgResponse r.msgSeq with
        | .error _ => .receive { d with errorCount := 0 }.freeEmsg
        | .ok frame => .receive { d.log [.write frame] with errorCount := 0 }.freeEmsg

/-- A request is parsed and answered. -/
def handleRequest (t : Turn) (r : Received) (d : Daemon) : Step :=
  answerRequest host (parsePacket ctx t.env (holding r.raw t.heap)) t r d

/-- A frame that was not received. -/
def receiveError (d : Daemon) : Step :=
  let d := { d with errorCount := d.errorCount + 1 }
  if d.errorCount > msgErrorCountThreshold then .out (-eio) d else .receive d.freeEmsg

/-- The body of the loop at the label `receive`. -/
def turn (t : Turn) (d : Daemon) : Step :=
  match recvMiscdev host t.read t.stale with
  | .error _ => receiveError d
  | .ok r =>
    let d := d.allocEmsg
    if r.msgType = msgHelo then .receive { d with errorCount := 0 }.freeEmsg
    else if r.msgType = msgQuit then .out 0 d.freeEmsg
    else if r.msgType = msgRequest then handleRequest host ctx t r d
    else .receive d.freeEmsg

/-- A turn of the process. -/
def takeTurn (t : Turn) (d : Daemon) : Except Daemon Step := (turn host ctx t d).performed

/-- The loop, on the turns that still come. -/
def run : Daemon → List Turn → Run
  | d, [] => ⟨.waiting, d, []⟩
  | d, t :: ts =>
    match takeTurn host ctx t d with
    | .ok (.receive d') => run d' ts
    | .ok (.out rc d') => ⟨.returned rc, d', ts⟩
    | .ok .fault => ⟨.fault, d, ts⟩
    | .error d' => ⟨.aborted, d', ts⟩

/-- `ecryptfs_run_miscdev_daemon`, after `ecryptfs_register_key_modules` failed or filled the
context. -/
def runMiscdevDaemon (registered : Except ℤ (List KeyMod)) (ts : List Turn) : Run :=
  match registered with
  | .error rc => ⟨.returned rc, .init, ts⟩
  | .ok ctx => run host ctx .init ts

end

end Ecryptfs
