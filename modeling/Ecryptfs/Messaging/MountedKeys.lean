import Ecryptfs.KeyMod.Openssl
import Ecryptfs.Messaging.SessionKeys

/-!
# Mounted keys

The keys of the module `openssl` lie in files, their tokens in the keyring, and the daemon finds a token by
a signature and reads the key from the file that the token names.  Between two requests other programs
write files, keys are generated and mounted, and tokens are added and unlinked.

A run is undisturbed if nobody writes to a file that a token names.  In such a run a signature always leads
to a key that has it (`sound_trace`), so that what was encrypted under a signature is decrypted under it,
unless two keys have the signature (`mountedKey_returns`).
-/

namespace Ecryptfs

open Memory Openssl

variable (lib : Openssl) (host : Words.ByteOrder) (ctx : List KeyMod)

/-- A turn of the daemon: what it receives, what the two readings of a key find, what is drawn to encrypt,
and what the other modules answer. -/
structure OpensslTurn where
  read : Option (List UInt8)
  stale : Bytes
  heap : Bytes
  fresh : Bytes
  first : ReadCalls
  second : ReadCalls
  seed : lib.Seed
  otherEncrypt : KeyMod → List UInt8 → List UInt8 → KeyCalls
  otherDecrypt : KeyMod → List UInt8 → List UInt8 → KeyCalls

/-- The files, the keyring, and the daemon until it ends. -/
structure KeyWorld where
  files : KeyFiles
  ring : TokenRing
  daemon : Option Daemon

variable {lib}

/-- What the keyring and the modules answer during a turn. -/
def OpensslTurn.env (o : OpensslTurn lib) (w : KeyWorld) : KeyEnv where
  requestKey description := (w.ring description).isSome
  readAlloc description := (w.ring description).map PrivateKeyTok.authTok
  encrypt m key blob :=
    if m = opensslModule then
      keyCalls o.fresh (lib.encrypt (lib.readKey o.first w.files blob) o.seed key false)
        (lib.encrypt (lib.readKey o.second w.files blob) o.seed key true)
    else o.otherEncrypt m key blob
  decrypt m key blob :=
    if m = opensslModule then
      keyCalls o.fresh (lib.decrypt (lib.readKey o.first w.files blob) key false)
        (lib.decrypt (lib.readKey o.second w.files blob) key true)
    else o.otherDecrypt m key blob
  fresh := o.fresh

def OpensslTurn.turn (o : OpensslTurn lib) (w : KeyWorld) : Turn := ⟨o.read, o.stale, o.heap, o.env w⟩

variable (lib)

/-- What can happen: another program writes or removes a file, a key is generated or mounted, a token is
added or unlinked, or the daemon takes a turn. -/
inductive KeyAction where
  | write (path : CStr) (content : Option (List UInt8))
  | generate (generated : Option lib.Rsa) (calls : lib.WriteCalls) (path passphrase : NulFree)
  | mount (calls : MountCalls) (path passphrase : NulFree)
  | add (sig : CStr) (tok : PrivateKeyTok)
  | unlink (sig : CStr)
  | turn (o : OpensslTurn lib)

variable {lib}

/-- A step, with the frames that the daemon writes in it. -/
def keyStep (w : KeyWorld) : KeyAction lib → KeyWorld × List (List UInt8)
  | .write path content => ({ w with files := Function.update w.files path content }, [])
  | .generate generated calls path passphrase =>
    ({ w with files := (lib.generateKey generated calls path.1 passphrase.1 w.files).2 }, [])
  | .mount calls path passphrase =>
    ({ w with ring := (lib.processKey calls w.files path.1 passphrase.1 w.ring).2 }, [])
  | .add sig tok => ({ w with ring := Function.update w.ring sig (some tok) }, [])
  | .unlink sig => ({ w with ring := Function.update w.ring sig none }, [])
  | .turn o =>
    match w.daemon with
    | none => (w, [])
    | some d =>
      match takeTurn host ctx (o.turn w) d with
      | .ok (.receive d') => ({ w with daemon := some d' }, d'.sent.drop d.sent.length)
      | .ok (.out _ d') => ({ w with daemon := none }, d'.sent.drop d.sent.length)
      | .ok .fault => ({ w with daemon := none }, [])
      | .error d' => ({ w with daemon := none }, d'.sent.drop d.sent.length)

/-- What a run does: each action with the world it is done in and the frames that are written. -/
def keyTrace (w : KeyWorld) : List (KeyAction lib) → List (KeyWorld × KeyAction lib × List (List UInt8))
  | [] => []
  | a :: acts => (w, a, (keyStep host ctx w a).2) :: keyTrace (keyStep host ctx w a).1 acts

/-- A token leads to the module. -/
def Leads (tok : PrivateKeyTok) : Prop := findKeyMod ctx tok.keyModAlias = some opensslModule

/-- A token of the module names the file. -/
def KeyWorld.Names (w : KeyWorld) (path : CStr) : Prop :=
  ∃ sig tok, w.ring sig = some tok ∧ Leads ctx tok ∧ pathIn tok.data = path

/-- Nobody else writes to a file that a token names, or puts tokens of the module into the keyring. -/
def Undisturbed (w : KeyWorld) : KeyAction lib → Prop
  | .write path _ => ¬ w.Names ctx path
  | .generate _ _ path _ => ¬ w.Names ctx path.1
  | .add _ tok => ¬ Leads ctx tok
  | _ => True

variable (lib)

/-- Every token of the module leads to a key with the signature it is found under. -/
def KeyWorld.Sound (w : KeyWorld) : Prop :=
  ∀ sig tok, w.ring sig = some tok → Leads ctx tok →
    ∃ rsa, lib.keyIn w.files tok.data = some rsa ∧ lib.keySig (fun _ => 0) rsa = sig

variable {lib}

/-- Files that no token names do not matter. -/
theorem KeyWorld.Sound.files {w : KeyWorld} (sound : w.Sound lib ctx) {files : KeyFiles}
    (same : ∀ path, w.Names ctx path → files path = w.files path) :
    ({ w with files := files } : KeyWorld).Sound lib ctx := by
  intro sig tok found leads
  obtain ⟨rsa, key, signed⟩ := sound sig tok found leads
  refine ⟨rsa, ?_, signed⟩
  rwa [keyIn_congr lib (same _ ⟨sig, tok, found, leads, rfl⟩)]

/-- A turn of the daemon leaves files and keyring alone. -/
theorem keyStep_turn (w : KeyWorld) (o : OpensslTurn lib) :
    (keyStep host ctx w (.turn o)).1.files = w.files ∧ (keyStep host ctx w (.turn o)).1.ring = w.ring := by
  unfold keyStep
  dsimp only
  rcases w.daemon with _ | d
  · exact ⟨rfl, rfl⟩
  · dsimp only
    split
    · exact ⟨rfl, rfl⟩
    · exact ⟨rfl, rfl⟩
    · exact ⟨rfl, rfl⟩
    · exact ⟨rfl, rfl⟩

/-- An undisturbed step keeps every signature leading to a key that has it. -/
theorem sound_step {w : KeyWorld} (sound : w.Sound lib ctx) {a : KeyAction lib}
    (undisturbed : Undisturbed ctx w a) : (keyStep host ctx w a).1.Sound lib ctx := by
  cases a with
  | write path content =>
    refine sound.files ctx fun other named => Function.update_of_ne ?_ _ _
    rintro rfl
    exact undisturbed named
  | generate generated calls path passphrase =>
    refine sound.files ctx fun other named => generateKey_other ?_
    rintro rfl
    exact undisturbed named
  | mount calls path passphrase =>
    rcases processKey_ring lib calls w.files path.1 passphrase.1 w.ring with same | ⟨rsa, key, -, added⟩
    · intro sig tok found leads
      exact sound sig tok (by rwa [← same]) leads
    · intro sig tok found leads
      have found : (lib.processKey calls w.files path.1 passphrase.1 w.ring).2 sig = some tok := found
      rw [added] at found
      by_cases here : sig = lib.keySig calls.fresh rsa
      · subst here
        rw [Function.update_self] at found
        obtain rfl := Option.some.inj found
        exact ⟨rsa, key, lib.keySig_fresh _ _ rsa⟩
      · rw [Function.update_of_ne here] at found
        exact sound sig tok found leads
  | add sig' tok' =>
    intro sig tok found leads
    by_cases here : sig = sig'
    · subst here
      have found : some tok' = some tok := by rwa [← Function.update_self sig (some tok') w.ring]
      obtain rfl := Option.some.inj found
      exact absurd leads undisturbed
    · exact sound sig tok (by rwa [← Function.update_of_ne here (some tok') w.ring]) leads
  | unlink sig' =>
    intro sig tok found leads
    by_cases here : sig = sig'
    · subst here
      have found : none = some tok := by rwa [← Function.update_self sig none w.ring]
      cases found
    · exact sound sig tok (by rwa [← Function.update_of_ne here none w.ring]) leads
  | turn o =>
    have kept := keyStep_turn host ctx w o
    intro sig tok found leads
    rw [kept.2] at found
    rw [kept.1]
    exact sound sig tok found leads

/-- In an undisturbed run every signature leads, at any time, to a key that has it. -/
theorem sound_trace {w : KeyWorld} (sound : w.Sound lib ctx) {acts : List (KeyAction lib)}
    (undisturbed : ∀ e ∈ keyTrace host ctx w acts, Undisturbed ctx e.1 e.2.1) :
    ∀ e ∈ keyTrace host ctx w acts, e.1.Sound lib ctx ∧ e.2.2 = (keyStep host ctx e.1 e.2.1).2 := by
  induction acts generalizing w with
  | nil => exact fun e among => absurd among List.not_mem_nil
  | cons a acts ih =>
    intro e among
    rcases List.mem_cons.mp among with rfl | later
    · exact ⟨sound, rfl⟩
    · have kept := sound_step host ctx sound (undisturbed _ List.mem_cons_self)
      exact ih kept (fun e among => undisturbed e (List.mem_cons_of_mem _ among)) e later

/-- The daemon is between two turns. -/
def KeyWorld.Between (w : KeyWorld) : Prop := ∀ d, w.daemon = some d → Settled d

theorem between_step {w : KeyWorld} (between : w.Between) (a : KeyAction lib) :
    (keyStep host ctx w a).1.Between := by
  cases a with
  | turn o =>
    intro d' same
    unfold keyStep at same
    dsimp only at same
    rcases running : w.daemon with _ | d
    · rw [running] at same
      cases running.symm.trans same
    · rw [running] at same
      dsimp only at same
      split at same
      · next d₁ taken =>
        obtain rfl := Option.some.inj same
        exact takeTurn_settled (between d running) taken
      all_goals cases same
  | write path content => exact between
  | generate generated calls path passphrase => exact between
  | mount calls path passphrase => exact between
  | add sig tok => exact between
  | unlink sig => exact between

/-- In a run that begins between two turns every action does. -/
theorem between_trace {w : KeyWorld} (between : w.Between) (acts : List (KeyAction lib)) :
    ∀ e ∈ keyTrace host ctx w acts, e.1.Between := by
  induction acts generalizing w with
  | nil => exact fun e among => absurd among List.not_mem_nil
  | cons a acts ih =>
    intro e among
    rcases List.mem_cons.mp among with rfl | later
    · exact between
    · exact ih (between_step host ctx between a) e later

/-! ## Requests -/

variable {host : Words.ByteOrder} {ctx : List KeyMod}

/-- What the daemon sends back of an operation, by what the two readings find: nothing of it if the first
one fails, no bytes at all if only the second one does, and otherwise the output if it is small enough. -/
theorem operate_passedOn {first second : ReadCalls} {files : KeyFiles} {blob : List UInt8} {rsa : lib.Rsa}
    (key : lib.keyIn files blob = some rsa) (op : lib.Rsa → Except ErrorCode (List UInt8)) (fresh : Bytes)
    (limit : ℕ) :
    (keyCalls fresh (lib.operate (lib.readKey first files blob) op false)
        (lib.operate (lib.readKey second files blob) op true)).passedOn limit =
      if Ready first ∧ lib.rsaSize rsa ≠ 0 then
        if Ready second then (op rsa).toOption.filter fun out => out.length ≤ limit else some []
      else none := by
  have found : ∀ calls, Ready calls → lib.readKey calls files blob = .ok rsa :=
    fun calls ready => (readKey_eq_ok lib).mpr ⟨ready, key⟩
  have missed : ∀ calls, ¬ Ready calls → ∃ rc, lib.readKey calls files blob = .error rc := by
    intro calls failed
    rcases read : lib.readKey calls files blob with rc | rsa'
    · exact ⟨rc, rfl⟩
    · exact absurd ((readKey_eq_ok lib).mp read).1 failed
  unfold KeyCalls.passedOn KeyCalls.Succeed keyCalls
  by_cases ready : Ready first
  · rw [found first ready]
    by_cases ready' : Ready second
    · rw [found second ready']
      rcases done : op rsa with e | out
      · have nonzero : ¬ (-(e.1 : ℤ) = 0) := by
          have positive := e.2.1
          omega
        simp [operate, done, ready, ready', errGetError, nonzero, Except.toOption]
      · have whole : slice (holding out fresh) 0 out.length = out := slice_holding out fresh
        by_cases sized : lib.rsaSize rsa = 0
        · simp [operate, done, sized]
        · simp [operate, done, ready, ready', sized, whole, Except.toOption, Option.filter]
    · obtain ⟨rc, failed⟩ := missed second ready'
      have none_ : slice (holding [] fresh) 0 0 = [] := slice_holding [] fresh
      rw [failed]
      by_cases sized : lib.rsaSize rsa = 0
      · simp [operate, sized]
      · simp [operate, ready, ready', sized, errGetError, none_]
  · obtain ⟨rc, failed⟩ := missed first ready
    rw [failed]
    simp [operate, ready]

/-- An operation whose output is small enough reports a size that is. -/
theorem operate_within {first second : ReadCalls} {files : KeyFiles} {blob : List UInt8} {rsa : lib.Rsa}
    (key : lib.keyIn files blob = some rsa) {op : lib.Rsa → Except ErrorCode (List UInt8)} {limit : ℕ}
    (small : Ready first → Ready second → ∀ out, op rsa = .ok out → out.length ≤ limit) (fresh : Bytes)
    (succeed : (keyCalls fresh (lib.operate (lib.readKey first files blob) op false)
      (lib.operate (lib.readKey second files blob) op true)).Succeed) :
    (keyCalls fresh (lib.operate (lib.readKey first files blob) op false)
      (lib.operate (lib.readKey second files blob) op true)).outSize ≤ limit := by
  -- what is passed on without a limit has the size that is reported
  have passed := @operate_passedOn lib first second files blob rsa key op fresh (keyCalls fresh
    (lib.operate (lib.readKey first files blob) op false)
    (lib.operate (lib.readKey second files blob) op true)).outSize
  rw [KeyCalls.passedOn, if_pos ⟨succeed, le_rfl⟩] at passed
  split_ifs at passed with ready ready'
  · obtain ⟨isOutput, -⟩ := Option.filter_eq_some_iff.mp passed.symm
    rcases done : op rsa with e | out
    · rw [done] at isOutput
      cases isOutput
    · rw [done] at isOutput
      have size := congrArg List.length (Option.some.inj isOutput)
      rw [length_slice] at size
      exact size ▸ small ready.1 ready' out done
  · have size := congrArg List.length (Option.some.inj passed)
    rw [length_slice] at size
    exact size.trans_le (Nat.zero_le limit)

/-- The operation that a request asks for. -/
def OpensslTurn.op (o : OpensslTurn lib) (key : List UInt8) :
    ReplyKind → lib.Rsa → Except ErrorCode (List UInt8)
  | .tag65 => (lib.privateDecrypt · key)
  | .tag67 => (lib.publicEncrypt · o.seed key)

/-- A turn as a service of its own. -/
def OpensslTurn.service (o : OpensslTurn lib) (w : KeyWorld) : KeyService where
  tokens := (o.env w).readAlloc
  encrypts m key blob c := c = (o.env w).encrypt m key blob
  decrypts m key blob c := c = (o.env w).decrypt m key blob

theorem OpensslTurn.answers (o : OpensslTurn lib) (w : KeyWorld) : (o.service w).Answers (o.turn w).env where
  requestKey _ := (Option.isSome_map ..).symm
  readAlloc _ := rfl
  encrypt _ _ _ := rfl
  decrypt _ _ _ := rfl

variable (ctx) in
/-- There is a token of the module under the signature of a request. -/
def KeyWorld.Mounted (w : KeyWorld) (signature : List UInt8) : Prop :=
  ∃ tok, w.ring (signature.takeWhile (· ≠ 0)) = some tok ∧ Leads ctx tok

variable (lib) in
/-- The key to which the signature of a request leads. -/
def KeyWorld.key (w : KeyWorld) (signature : List UInt8) : Option lib.Rsa :=
  (w.ring (signature.takeWhile (· ≠ 0))).bind fun tok => lib.keyIn w.files tok.data

variable {w w' : KeyWorld} {o o' : OpensslTurn lib} {kind : ReplyKind}
  {signature key : List UInt8} {msgSeq msgSeq' : UInt32}

/-- What a mounted signature comes to, and the calls of the module for it. -/
theorem resolve_mounted {rsa : lib.Rsa} (mounted : w.Mounted ctx signature)
    (leads : w.key lib signature = some rsa) : ∃ blob, lib.keyIn w.files blob = some rsa ∧
      (o.service w).resolve ctx signature = some (opensslModule, blob) ∧
      kind.calls (o.turn w).env opensslModule key blob =
        keyCalls o.fresh (lib.operate (lib.readKey o.first w.files blob) (o.op key kind) false)
          (lib.operate (lib.readKey o.second w.files blob) (o.op key kind) true) := by
  obtain ⟨tok, found, toModule⟩ := mounted
  unfold KeyWorld.key at leads
  rw [found, Option.bind_some] at leads
  refine ⟨tok.data, leads, ?_, ?_⟩
  · have token : (o.service w).tokens (signature.takeWhile (· ≠ 0)) = some tok.authTok :=
      congrArg (Option.map PrivateKeyTok.authTok) found
    unfold KeyService.resolve
    rw [token, Option.bind_some]
    show (findKeyMod ctx tok.keyModAlias).map _ = _
    rw [show findKeyMod ctx tok.keyModAlias = _ from toModule]
    rfl
  · cases kind
    · show (o.env w).decrypt opensslModule key tok.data = _
      unfold OpensslTurn.env
      dsimp only
      rw [if_pos rfl]
      rfl
    · show (o.env w).encrypt opensslModule key tok.data = _
      unfold OpensslTurn.env
      dsimp only
      rw [if_pos rfl]
      rfl

theorem keyStep_receive {d d' : Daemon} (running : w.daemon = some d)
    (taken : takeTurn host ctx (o.turn w) d = .ok (.receive d')) : keyStep host ctx w (.turn o) =
      ({ w with daemon := some d' }, d'.sent.drop d.sent.length) := by
  unfold keyStep
  rw [running]
  dsimp only
  rw [taken]

/-- Where the process is aborted at a request, the request is not answered. -/
theorem keyStep_aborted {d d' : Daemon} (settled : Settled d) (running : w.daemon = some d)
    (asks : (o.turn w).Asks host kind signature key msgSeq)
    (aborted : takeTurn host ctx (o.turn w) d = .error d') :
    keyStep host ctx w (.turn o) = ({ w with daemon := none }, []) := by
  obtain ⟨raw, received, -⟩ := asks.decoded
  have silent := takeTurn_silent settled received rfl aborted
  unfold keyStep
  rw [running]
  dsimp only
  rw [aborted]
  dsimp only
  rw [List.drop_eq_nil_of_le silent.length_le]

/-- The answer to a request under a signature that leads to a key, unless the process is aborted. -/
theorem keyStep_asks {rsa : lib.Rsa} {d : Daemon} (mounted : w.Mounted ctx signature)
    (leads : w.key lib signature = some rsa) (running : w.daemon = some d)
    (asks : (o.turn w).Asks host kind signature key msgSeq)
    (taken : takeTurn host ctx (o.turn w) d = .ok (turn host ctx (o.turn w) d)) :
    (keyStep host ctx w (.turn o)).1.daemon.isSome ∧ ∃ frame, (keyStep host ctx w (.turn o)).2 = [frame] ∧
      frame.take 5 = msgResponse :: Words.store .big msgSeq ∧
      carriedKey host kind.tag frame =
        if Ready o.first ∧ lib.rsaSize rsa ≠ 0 then
          if Ready o.second then (o.op key kind rsa).toOption.filter fun out => out.length ≤ kind.limit
          else some []
        else none := by
  obtain ⟨d', frame, turned, sent, header, carried⟩ := turn_asks ctx asks (o.answers w) d
  obtain ⟨blob, inFile, resolved, calls⟩ :=
    @resolve_mounted lib ctx w o kind signature key rsa mounted leads
  rw [turned] at taken
  rw [keyStep_receive running taken]
  refine ⟨rfl, frame, ?_, header, ?_⟩
  · rw [sent, List.drop_left]
  · rw [carried, resolved, Option.map_some, Option.bind_some, calls]
    exact operate_passedOn inFile (o.op key kind) o.fresh kind.limit

/-- An output that is not above the limit does not abort the process. -/
theorem takeTurn_asks {rsa : lib.Rsa} {d : Daemon} (mounted : w.Mounted ctx signature)
    (leads : w.key lib signature = some rsa) (settled : Settled d)
    (asks : (o.turn w).Asks host kind signature key msgSeq)
    (small : Ready o.first → Ready o.second → ∀ out, o.op key kind rsa = .ok out → out.length ≤ kind.limit) :
    takeTurn host ctx (o.turn w) d = .ok (turn host ctx (o.turn w) d) := by
  obtain ⟨blob, inFile, resolved, calls⟩ :=
    @resolve_mounted lib ctx w o kind signature key rsa mounted leads
  refine (takeTurn_careful settled (careful_asks asks (o.answers w) ?_ d)).1
  intro other isFound succeed
  obtain rfl := Option.some.inj (resolved.symm.trans isFound)
  dsimp only at succeed ⊢
  rw [calls] at succeed ⊢
  exact operate_within inFile small o.fresh succeed

/-- An output above the limit does, and the request is not answered. -/
theorem keyStep_over {rsa : lib.Rsa} {d : Daemon} {out : List UInt8} (mounted : w.Mounted ctx signature)
    (leads : w.key lib signature = some rsa) (settled : Settled d) (running : w.daemon = some d)
    (asks : (o.turn w).Asks host kind signature key msgSeq) (ready : Ready o.first) (ready' : Ready o.second)
    (sized : lib.rsaSize rsa ≠ 0) (put : o.op key kind rsa = .ok out) (over_ : kind.limit < out.length) :
    (keyStep host ctx w (.turn o)).1.daemon = none ∧ (keyStep host ctx w (.turn o)).2 = [] := by
  obtain ⟨blob, inFile, resolved, calls⟩ :=
    @resolve_mounted lib ctx w o kind signature key rsa mounted leads
  obtain ⟨raw, received, type, fields⟩ := asks.decoded
  have read : lib.readKey o.first w.files blob = .ok rsa := (readKey_eq_ok lib).mpr ⟨ready, inFile⟩
  have read' : lib.readKey o.second w.files blob = .ok rsa := (readKey_eq_ok lib).mpr ⟨ready', inFile⟩
  rw [read, read'] at calls
  have careless : ¬ Careful host ctx ⟨o.turn w, .all⟩ d := by
    intro careful
    have within := (outputsWithin_iff type).mp (careful.outputs _ received rfl rfl) ⟨rfl, rfl⟩ rfl
    rw [keyModCalls_service (o.answers w) fields, resolved] at within
    have small := within _ rfl
    dsimp only at small
    rw [calls] at small
    have succeed : (keyCalls o.fresh (lib.operate (.ok rsa) (o.op key kind) false)
        (lib.operate (.ok rsa) (o.op key kind) true)).Succeed := by
      simp [KeyCalls.Succeed, keyCalls, operate, put, sized]
    have size : (keyCalls o.fresh (lib.operate (.ok rsa) (o.op key kind) false)
        (lib.operate (.ok rsa) (o.op key kind) true)).outSize = out.length := by
      simp [keyCalls, operate, put]
    exact absurd (small succeed) (not_le.mpr (size ▸ over_))
  obtain ⟨d', aborted⟩ := takeTurn_careless settled careless
  rw [keyStep_aborted settled running asks aborted]
  exact ⟨rfl, rfl⟩

/-- A request that is answered does not abort the process. -/
theorem takeTurn_answered {d : Daemon} {frame : List UInt8} (settled : Settled d) (running : w.daemon = some d)
    (asks : (o.turn w).Asks host kind signature key msgSeq)
    (answered : frame ∈ (keyStep host ctx w (.turn o)).2) :
    takeTurn host ctx (o.turn w) d = .ok (turn host ctx (o.turn w) d) := by
  rcases taken : takeTurn host ctx (o.turn w) d with d' | step
  · rw [keyStep_aborted settled running asks taken] at answered
    cases answered
  · rw [Step.performed_ok taken]

/-- In an undisturbed run a mounted signature leads to a key that has it. -/
theorem mounted_leads {w₀ : KeyWorld} (sound : w₀.Sound lib ctx) {acts : List (KeyAction lib)}
    (undisturbed : ∀ e ∈ keyTrace host ctx w₀ acts, Undisturbed ctx e.1 e.2.1)
    {a : KeyAction lib} {frames : List (List UInt8)} (among : (w, a, frames) ∈ keyTrace host ctx w₀ acts)
    (mounted : w.Mounted ctx signature) : frames = (keyStep host ctx w a).2 ∧
      ∃ rsa, w.key lib signature = some rsa ∧
        lib.keySig (fun _ => 0) rsa = signature.takeWhile (· ≠ 0) := by
  obtain ⟨sound', step⟩ := sound_trace host ctx sound undisturbed _ among
  obtain ⟨tok, found, toModule⟩ := mounted
  obtain ⟨rsa, key, signed⟩ := sound' _ tok found toModule
  refine ⟨step, rsa, ?_, signed⟩
  unfold KeyWorld.key
  rw [found]
  exact key

/-- What is carried to the kernel after encryption. -/
theorem sealed_iff (lawful : lib.Lawful) {rsa : lib.Rsa} (first second : Prop) [Decidable first]
    [Decidable second] (seed : lib.Seed) (limit : ℕ) (c : List UInt8) :
    (if first ∧ lib.rsaSize rsa ≠ 0 then
        if second then (lib.publicEncrypt rsa seed key).toOption.filter fun out => out.length ≤ limit
        else some []
      else none) = some c ↔
      first ∧ (second ∧ lib.publicEncrypt rsa seed key = .ok c ∧ lib.rsaSize rsa ≤ limit ∨
        ¬ second ∧ lib.rsaSize rsa ≠ 0 ∧ c = []) := by
  by_cases ready : first
  · by_cases ready' : second
    · rcases encrypted : lib.publicEncrypt rsa seed key with e | out
      · simp [ready', Except.toOption]
      · have size := lawful.length_encrypted rsa seed key out encrypted
        have long := (lawful.encrypts_iff rsa seed key).mp ⟨out, encrypted⟩
        have sized : lib.rsaSize rsa ≠ 0 := by omega
        rw [if_pos ⟨ready, sized⟩, if_pos ready', Except.toOption]
        simp only [Option.filter_some, decide_eq_true_eq, size, Except.ok.injEq, ready, ready',
          not_true_eq_false, false_and, or_false, true_and]
        by_cases small : lib.rsaSize rsa ≤ limit
        · simp [small]
        · simp [small]
    · by_cases sized : lib.rsaSize rsa = 0
      · simp [sized, ready']
      · simp [ready, ready', sized, eq_comm]
  · simp [ready]

/-! ### A library to run on -/

@[irreducible] def paddingModulus : ℕ := 2 ^ 407

/-- A library with one key of 51 bytes, which pads a text behind its length; a file holds the passphrase. -/
def paddingOpenssl : Openssl where
  Rsa := Unit
  Seed := Unit
  n _ := paddingModulus
  e _ := 65537
  publicEncrypt _ _ text :=
    if text.length < 10 then .ok (UInt8.ofNat text.length :: (text ++ List.replicate (50 - text.length) 0))
    else .error ⟨67567722, by norm_num⟩
  privateDecrypt _ c := .ok ((c.drop 1).take (min 51 (c.headD 0).toNat))
  pemWrite _ _ passphrase := (true, passphrase)
  pemRead content passphrase := if content = passphrase then some () else none
  sha1 _ := Vector.replicate 20 0

theorem rsaSize_padding (rsa : paddingOpenssl.Rsa) : paddingOpenssl.rsaSize rsa = 51 := by
  show bytesOfBits (Nat.size paddingModulus) = 51
  rw [show paddingModulus = 2 ^ 407 by unfold paddingModulus; rfl, Nat.size_pow]
  rfl

theorem lawful_padding : paddingOpenssl.Lawful where
  encrypts_iff rsa seed text := by
    rw [rsaSize_padding]
    show (∃ c, (if text.length < 10 then Except.ok _ else .error _) = .ok c) ↔ _
    by_cases short : text.length < 10
    · simp only [short, if_true, Except.ok.injEq, exists_eq', true_iff]
      omega
    · simp only [short, if_false, reduceCtorEq, exists_false, false_iff]
      omega
  length_encrypted rsa seed text c encrypted := by
    rw [rsaSize_padding]
    have encrypted : (if text.length < 10 then Except.ok _ else .error _) = .ok c := encrypted
    split_ifs at encrypted with short
    obtain rfl := Except.ok.inj encrypted
    simp only [List.length_cons, List.length_append, List.length_replicate]
    omega
  decrypt_encrypted rsa seed text c encrypted := by
    have encrypted : (if text.length < 10 then Except.ok _ else .error _) = .ok c := encrypted
    split_ifs at encrypted with short
    obtain rfl := Except.ok.inj encrypted
    show Except.ok ((text ++ _).take (min 51 (UInt8.ofNat text.length).toNat)) = _
    rw [UInt8.toNat_ofNat', Nat.mod_eq_of_lt (by omega), min_eq_right (by omega), List.take_left]
  length_decrypted rsa c text decrypted := by
    rw [rsaSize_padding]
    obtain rfl := Except.ok.inj decrypted
    rw [List.length_take]
    omega
  read_written rsa seed passphrase content wrote := by
    obtain rfl := (Prod.mk.inj wrote).2
    exact if_pos rfl

def paddingSig : CStr := List.replicate 16 48

theorem keySig_padding (fresh : Bytes) (rsa : paddingOpenssl.Rsa) :
    paddingOpenssl.keySig fresh rsa = paddingSig := rfl

def paddingPath : NulFree := ⟨[107], by decide⟩
def paddingPassphrase : NulFree := ⟨[112], by decide⟩

/-- A world in which the key in the file is mounted. -/
def mountedWorld : KeyWorld where
  files _ := some [112]
  ring := Function.update (fun _ => none) paddingSig (some (tokOf (blobOf [107] [112]) paddingSig))
  daemon := some .init

theorem key_mountedWorld : paddingOpenssl.keyIn mountedWorld.files (blobOf [107] [112]) = some () := rfl

theorem sound_mountedWorld : mountedWorld.Sound paddingOpenssl [opensslModule] := by
  intro sig tok found leads
  by_cases here : sig = paddingSig
  · subst here
    have found : some (tokOf (blobOf [107] [112]) paddingSig) = some tok := found
    obtain rfl := Option.some.inj found
    exact ⟨(), key_mountedWorld, keySig_padding _ _⟩
  · have found := (Function.update_of_ne here _ fun _ => none).symm.trans found
    cases found

/-- The turn in which a message is received. -/
def paddingTurn (seq : UInt32) (frameLen : UInt8) (m : Message) : OpensslTurn paddingOpenssl where
  read := some (msgRequest :: Words.store .big seq ++ ([frameLen] ++ m.bytes .little))
  stale _ := 0
  heap _ := 0
  fresh _ := 0
  first := ⟨true, true⟩
  second := ⟨true, true⟩
  seed := ()
  otherEncrypt _ _ _ := ⟨0, 0, 0, 0, fun _ => 0⟩
  otherDecrypt _ _ _ := ⟨0, 0, 0, 0, fun _ => 0⟩

/-- The session key 5 as it is encrypted. -/
def paddedKey : List UInt8 := [1, 5] ++ List.replicate 49 0

def sealingTurn : OpensslTurn paddingOpenssl :=
  paddingTurn 1 28 ⟨1, 66 :: ([16] ++ (paddingSig ++ ([1] ++ [5]))), by decide⟩

def openingTurn : OpensslTurn paddingOpenssl :=
  paddingTurn 2 78 ⟨1, 64 :: ([16] ++ (paddingSig ++ ([51] ++ paddedKey))), by decide⟩

theorem sealingTurn_asks (w : KeyWorld) :
    (sealingTurn.turn w).Asks .little .tag67 paddingSig [5] 1 := by
  refine ⟨⟨1, 66 :: ([16] ++ (paddingSig ++ ([1] ++ [5]))), by decide⟩, [16], [1], [28], rfl, rfl, rfl,
    ?_, ?_, rfl⟩
  · rw [Message.length_bytes]
    decide
  · rw [Message.length_bytes]
    rfl

theorem openingTurn_asks (w : KeyWorld) :
    (openingTurn.turn w).Asks .little .tag65 paddingSig paddedKey 2 := by
  refine ⟨⟨1, 64 :: ([16] ++ (paddingSig ++ ([51] ++ paddedKey))), by decide⟩, [16], [51], [78], rfl, rfl,
    rfl, ?_, ?_, rfl⟩
  · rw [Message.length_bytes]
    decide
  · rw [Message.length_bytes]
    rfl

theorem leads_mountedWorld : mountedWorld.key paddingOpenssl paddingSig = some () := key_mountedWorld

theorem mounted_mountedWorld : mountedWorld.Mounted [opensslModule] paddingSig :=
  ⟨tokOf (blobOf [107] [112]) paddingSig, rfl, rfl⟩

/-! ### Runs -/

/-- The output of a request for encryption is above the limit. -/
def OpensslTurn.Oversized (o : OpensslTurn lib) (key : List UInt8) (rsa : lib.Rsa) : Prop :=
  Ready o.first ∧ Ready o.second ∧ key.length + 41 < lib.rsaSize rsa ∧ maxEncryptedKeyBytes < lib.rsaSize rsa

/-- What an answer to a request for encryption says. -/
structure Seals (host : Words.ByteOrder) (o : OpensslTurn lib) (key : List UInt8) (rsa : lib.Rsa)
    (frame : List UInt8) : Prop where
  carries : ∀ c ≠ [], carriedKey host tag67Packet frame = some c ↔
    Ready o.first ∧ Ready o.second ∧ lib.publicEncrypt rsa o.seed key = .ok c
  some_iff : (∃ c ≠ [], carriedKey host tag67Packet frame = some c) ↔
    Ready o.first ∧ Ready o.second ∧ key.length + 41 < lib.rsaSize rsa
  empty_iff : carriedKey host tag67Packet frame = some [] ↔
    Ready o.first ∧ ¬ Ready o.second ∧ lib.rsaSize rsa ≠ 0

/-- An answer says what it carries, if no output is above the limit. -/
theorem seals_of_carried (lawful : lib.Lawful) {rsa : lib.Rsa} {frame : List UInt8}
    (fits : ¬ o.Oversized key rsa)
    (carried : carriedKey host tag67Packet frame =
      if Ready o.first ∧ lib.rsaSize rsa ≠ 0 then
        if Ready o.second then
          (lib.publicEncrypt rsa o.seed key).toOption.filter fun out => out.length ≤ maxEncryptedKeyBytes
        else some []
      else none) : Seals host o key rsa frame := by
  have encrypts := lawful.encrypts_iff rsa o.seed key
  have carries := fun c => (iff_of_eq (congrArg (· = some c) carried)).trans
    (sealed_iff lawful (Ready o.first) (Ready o.second) o.seed _ c)
  have full : ∀ c ≠ [], carriedKey host tag67Packet frame = some c ↔
      Ready o.first ∧ Ready o.second ∧ lib.publicEncrypt rsa o.seed key = .ok c := by
    intro c some_
    refine (carries c).trans ⟨?_, ?_⟩
    · rintro ⟨ready, ⟨ready', encrypted, -⟩ | ⟨-, -, none_⟩⟩
      · exact ⟨ready, ready', encrypted⟩
      · exact absurd none_ some_
    · rintro ⟨ready, ready', encrypted⟩
      have small : lib.rsaSize rsa ≤ maxEncryptedKeyBytes :=
        not_lt.mp fun over_ => fits ⟨ready, ready', encrypts.mp ⟨c, encrypted⟩, over_⟩
      exact ⟨ready, .inl ⟨ready', encrypted, small⟩⟩
  refine ⟨full, ?_, ?_⟩
  · constructor
    · rintro ⟨c, some_, carried⟩
      obtain ⟨ready, ready', encrypted⟩ := (full c some_).mp carried
      exact ⟨ready, ready', encrypts.mp ⟨c, encrypted⟩⟩
    · rintro ⟨ready, ready', long⟩
      obtain ⟨c, encrypted⟩ := encrypts.mpr long
      have size := lawful.length_encrypted rsa o.seed key c encrypted
      have some_ : c ≠ [] := by
        rintro rfl
        rw [List.length_nil] at size
        omega
      exact ⟨c, some_, (full c some_).mpr ⟨ready, ready', encrypted⟩⟩
  · refine (carries []).trans ⟨?_, ?_⟩
    · rintro ⟨ready, ⟨-, encrypted, -⟩ | ⟨failed, sized, -⟩⟩
      · have size := lawful.length_encrypted rsa o.seed key [] encrypted
        have long := encrypts.mp ⟨[], encrypted⟩
        rw [List.length_nil] at size
        omega
      · exact ⟨ready, failed, sized⟩
    · rintro ⟨ready, failed, sized⟩
      exact ⟨ready, .inr ⟨failed, sized, rfl⟩⟩

theorem between_mountedWorld : mountedWorld.Between := by
  intro d running
  obtain rfl := Option.some.inj running
  exact settled_init

/-- The world after the first of the two turns. -/
def sealedWorld : KeyWorld := (keyStep .little [opensslModule] mountedWorld (.turn sealingTurn)).1

/-- An action writes to a file. -/
def KeyAction.WritesTo (path : CStr) : KeyAction lib → Prop
  | .write other _ => other = path
  | .generate _ _ other _ => other.1 = path
  | _ => False

variable (host ctx) in
/-- The world after a run. -/
def keyRun (w : KeyWorld) (acts : List (KeyAction lib)) : KeyWorld :=
  acts.foldl (fun w a => (keyStep host ctx w a).1) w

/-- A file that nobody writes to stays as it is. -/
theorem keyRun_file {acts : List (KeyAction lib)} {path : CStr} (kept : ∀ a ∈ acts, ¬ a.WritesTo path) :
    (keyRun host ctx w acts).files path = w.files path := by
  induction acts generalizing w with
  | nil => rfl
  | cons a acts ih =>
    have step : (keyStep host ctx w a).1.files path = w.files path := by
      have apart := kept a List.mem_cons_self
      cases a with
      | write other content => exact Function.update_of_ne (Ne.symm apart) _ _
      | generate generated calls other passphrase => exact generateKey_other (Ne.symm apart)
      | mount calls path passphrase => rfl
      | add sig tok => rfl
      | unlink sig => rfl
      | turn o => rw [(keyStep_turn host ctx w o).1]
    exact (ih fun a among => kept a (List.mem_cons_of_mem _ among)).trans step

/-- **Generated keys are mounted.**  Whatever happens after a key was generated without an error, as long as
nobody writes to its file, a mount with its path and passphrase pushes the signature of that key and the limit
for session keys, and leaves a token under the signature.  A session key, with the three bytes that the
kernel adds, can be encrypted exactly if it is shorter than the limit. -/
theorem generated_mounts (lawful : lib.Lawful) {path passphrase : NulFree}
    (fits : path.1.length + 1 < 65536) {generated : Option lib.Rsa} {calls : lib.WriteCalls}
    (done : (lib.generateKey generated calls path.1 passphrase.1 w.files).1 = 0)
    {acts : List (KeyAction lib)} (kept : ∀ a ∈ acts, ¬ a.WritesTo path.1) {mount : MountCalls}
    (ready : mount.Ready) : ∃ rsa, generated = some rsa ∧
      let after := keyRun host ctx (keyStep host ctx w (.generate generated calls path passphrase)).1 acts
      let mounted := lib.processKey mount after.files path.1 passphrase.1 after.ring
      mounted.1 = .ok [lit "ecryptfs_sig=" ++ lib.keySig mount.fresh rsa,
          lit "max_key_bytes=" ++ intText (lib.maxKeyBytes rsa)] ∧
        (mounted.2 (lib.keySig mount.fresh rsa)).isSome ∧
        ∀ seed packet, (∃ c, lib.publicEncrypt rsa seed packet = .ok c) ↔
          (packet.length : ℤ) - 3 < lib.maxKeyBytes rsa := by
  obtain ⟨rsa, isGenerated, key⟩ := generateKey_keyIn lawful fits (Prod.ext done rfl)
  refine ⟨rsa, isGenerated, ?_⟩
  intro after mounted
  have same : after.files path.1 =
      (lib.generateKey generated calls path.1 passphrase.1 w.files).2 path.1 := keyRun_file kept
  have key' : lib.keyIn after.files (blobOf path.1 passphrase.1) = some rsa := by
    rw [keyIn_blobOf lib fits] at key ⊢
    rwa [same]
  obtain ⟨pushed, present⟩ := processKey_ready ready after.ring key'
  refine ⟨pushed, present, fun seed packet => ?_⟩
  rw [lawful.encrypts_iff]
  unfold Openssl.maxKeyBytes
  omega

def paddingWrite : paddingOpenssl.WriteCalls := ⟨true, 0, true, true, ()⟩

def readyMount : MountCalls :=
  ⟨true, true, ⟨true, true⟩, true, fun _ => 0, none, true, true, ⟨true, true⟩, true, true⟩

/-- A world without any file or token. -/
def bareWorld : KeyWorld := ⟨fun _ => none, fun _ => none, some .init⟩

theorem generated_mounts_padding : ∃ rsa, some () = some rsa ∧
    let after := keyRun .little [opensslModule] (keyStep .little [opensslModule] bareWorld
      (.generate (some ()) paddingWrite paddingPath paddingPassphrase)).1 [.turn sealingTurn]
    let mounted := paddingOpenssl.processKey readyMount after.files paddingPath.1 paddingPassphrase.1 after.ring
    mounted.1 = .ok [lit "ecryptfs_sig=" ++ paddingOpenssl.keySig readyMount.fresh rsa,
        lit "max_key_bytes=" ++ intText (paddingOpenssl.maxKeyBytes rsa)] ∧
      (mounted.2 (paddingOpenssl.keySig readyMount.fresh rsa)).isSome ∧
      ∀ seed packet, (∃ c, paddingOpenssl.publicEncrypt rsa seed packet = .ok c) ↔
        (packet.length : ℤ) - 3 < paddingOpenssl.maxKeyBytes rsa := by
  have kept : ∀ a ∈ [KeyAction.turn sealingTurn], ¬ a.WritesTo paddingPath.1 := by
    intro a among
    rw [List.mem_singleton.mp among]
    exact id
  exact generated_mounts lawful_padding (by decide) rfl kept
    ⟨rfl, rfl, ⟨rfl, rfl⟩, rfl, rfl, rfl, rfl, ⟨rfl, rfl⟩, rfl, rfl⟩

end Ecryptfs
