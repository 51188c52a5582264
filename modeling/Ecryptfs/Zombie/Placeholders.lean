import Ecryptfs.Zombie.TableProof

/-!
# Placeholders and the ends of their sessions

A placeholder registers in the table, sleeps, and removes an entry of its session when it wakes; the
end of a session kills the process of the first entry of the session and removes that entry.  The
entry that a waking placeholder removes need not be its own: then its own entry stays behind, and the
next end of the session signals a process that has exited.

The sections of the processes are atomic here, so that a step is one whole visit to the table.
-/

namespace Ecryptfs

open Memory

/-- The shared memory, and the sessions of the placeholders that are alive. -/
structure Sessions where
  mem : Bytes
  alive : Pid → Option Pid

/-- A visit to the table: a placeholder registers, a placeholder wakes, or a session ends. -/
inductive SessionEvent where
  | register (caller : Caller)
  | wake (caller : Caller)
  | sessionEnd (caller : Caller)
  deriving DecidableEq

namespace SessionEvent

/-- When an event can happen: the process that registers is a new one, and one that wakes is alive. -/
def Enabled (s : Sessions) : SessionEvent → Prop
  | .register caller => caller.pid ≠ 0 ∧ s.alive caller.pid = none
  | .wake caller => s.alive caller.pid = some caller.sid
  | .sessionEnd _ => True

/-- What an event does.  A placeholder that finds no room returns at once; a session end that finds
no process does nothing. -/
def apply (s : Sessions) : SessionEvent → Sessions
  | .register caller =>
    let added := addSidPidPairToShm {} caller s.mem
    if added.rc = 0 then ⟨added.mem, Function.update s.alive caller.pid (some caller.sid)⟩
    else ⟨added.mem, s.alive⟩
  | .wake caller =>
    ⟨(removePidForThisSid {} caller s.mem).mem, Function.update s.alive caller.pid none⟩
  | .sessionEnd caller =>
    let pid := (findPidForThisSid {} caller s.mem).1
    if pid = 0 then s
    else ⟨(removePidForThisSid {} caller s.mem).mem, Function.update s.alive pid none⟩

/-- A placeholder wakes in its turn: the first entry of its session is its own. -/
def InTurn (s : Sessions) : SessionEvent → Prop
  | .wake caller => (findPidForThisSid {} caller s.mem).1 = caller.pid
  | _ => True

end SessionEvent

/-- The states that events lead to from the zeroed segment without placeholders, if all of them meet
a condition. -/
inductive SessionsReached (cond : Sessions → SessionEvent → Prop) : Sessions → Prop
  | start {m : Bytes} (zeroed : ∀ k < shmSize, m k = 0) : SessionsReached cond ⟨m, fun _ => none⟩
  | step {s : Sessions} (before : SessionsReached cond s) (e : SessionEvent) (enabled : e.Enabled s)
      (meets : cond s e) : SessionsReached cond (e.apply s)

/-- Every process in the table is a placeholder of its session that is alive. -/
def TableAlive (s : Sessions) : Prop := ∀ p ∈ table s.mem, s.alive p.2 = some p.1

/-- The table lists the placeholders that are alive, each of them once. -/
structure Accounted (s : Sessions) (t : List SidPid) : Prop where
  represents : Represents s.mem t
  alive : ∀ p ∈ t, s.alive p.2 = some p.1
  listed : ∀ pid sid, s.alive pid = some sid → (sid, pid) ∈ t
  once : (t.map Prod.snd).Nodup

variable {s : Sessions} {t : List SidPid} {caller : Caller}

theorem find_session {sid : Pid} {p : SidPid} (first : t.find? (ofSession sid) = some p) : p.1 = sid := by
  have isSid := List.find?_some first
  exact of_decide_eq_true isSid

/-- What a session end finds. -/
theorem Accounted.found (accounted : Accounted s t) :
    (findPidForThisSid {} caller s.mem).1 =
      ((t.find? (ofSession caller.sid)).map Prod.snd).getD 0 :=
  (find_spec accounted.represents rfl rfl).2.2

/-- The first entry of a session is removed together with its process. -/
theorem Accounted.remove (accounted : Accounted s t) {p : SidPid}
    (first : t.find? (ofSession caller.sid) = some p) :
    Accounted ⟨(removePidForThisSid {} caller s.mem).mem, Function.update s.alive p.2 none⟩
      (t.eraseP (ofSession caller.sid)) := by
  obtain ⟨isSid, front, back, here, others⟩ := List.find?_eq_some_iff_append.mp first
  have erased : t.eraseP (ofSession caller.sid) = front ++ back := by
    rw [here, List.eraseP_append_right _ fun u among => by simpa using others u among,
      List.eraseP_cons_of_pos isSid]
  have once := accounted.once
  rw [here, List.map_append, List.map_cons, List.nodup_middle, List.nodup_cons, ← List.map_append] at once
  have apart : ∀ u ∈ front ++ back, u.2 ≠ p.2 :=
    fun u among same => once.1 (List.mem_map.mpr ⟨u, among, same⟩)
  have inTable : ∀ u, u ∈ t ↔ u = p ∨ u ∈ front ++ back := by
    intro u
    rw [here]
    simp only [List.mem_append, List.mem_cons]
    tauto
  refine ⟨(@remove_spec s.mem t caller {} accounted.represents rfl rfl).2.1, ?_, ?_, ?_⟩
  · rw [erased]
    intro u among
    change Function.update s.alive p.2 none u.2 = some u.1
    rw [Function.update_of_ne (apart u among)]
    exact accounted.alive u ((inTable u).mpr (.inr among))
  · rw [erased]
    intro pid sid isAlive
    change Function.update s.alive p.2 none pid = some sid at isAlive
    by_cases same : pid = p.2
    · rw [same, Function.update_self] at isAlive
      cases isAlive
    · rw [Function.update_of_ne same] at isAlive
      rcases (inTable _).mp (accounted.listed pid sid isAlive) with isP | among
      · exact absurd (congrArg Prod.snd isP) same
      · exact among
  · rw [erased]
    exact once.2

/-- A placeholder registers while there is room. -/
theorem register_room (represents : Represents s.mem t) (nonzero : caller.pid ≠ 0)
    (room : t.length < maxPairs) :
    Represents ((SessionEvent.register caller).apply s).mem (t ++ [caller.pair]) ∧
      ((SessionEvent.register caller).apply s).alive =
        Function.update s.alive caller.pid (some caller.sid) := by
  obtain ⟨rc, after, -⟩ := @add_spec s.mem t caller {} represents nonzero rfl room
  have success : (addSidPidPairToShm {} caller s.mem).rc = 0 := rc
  rw [SessionEvent.apply, if_pos success]
  exact ⟨after, rfl⟩

/-- A new placeholder is added to the table. -/
theorem Accounted.register (accounted : Accounted s t) (nonzero : caller.pid ≠ 0)
    (fresh : s.alive caller.pid = none) :
    ∃ t', Accounted ((SessionEvent.register caller).apply s) t' := by
  rcases lt_or_eq_of_le accounted.represents.few with room | full
  · obtain ⟨after, updated⟩ := register_room accounted.represents nonzero room
    have unlisted : ∀ u ∈ t, u.2 ≠ caller.pid := by
      intro u among same
      have isAlive := accounted.alive u among
      rw [same, fresh] at isAlive
      cases isAlive
    refine ⟨t ++ [caller.pair], after, fun u among => ?_, fun pid sid isAlive => ?_, ?_⟩
    · rw [updated]
      rcases List.mem_append.mp among with old | new
      · rw [Function.update_of_ne (unlisted u old)]
        exact accounted.alive u old
      · rw [List.mem_singleton.mp new]
        exact Function.update_self _ _ _
    · rw [updated] at isAlive
      by_cases same : pid = caller.pid
      · rw [same, Function.update_self] at isAlive
        rw [same, ← Option.some.inj isAlive]
        exact List.mem_append_right _ (List.mem_singleton.mpr rfl)
      · rw [Function.update_of_ne same] at isAlive
        exact List.mem_append_left _ (accounted.listed pid sid isAlive)
    · rw [List.map_append, List.map_singleton, List.nodup_append]
      refine ⟨accounted.once, List.nodup_singleton _, fun pid old pid' new => ?_⟩
      obtain ⟨u, among, rfl⟩ := List.mem_map.mp old
      rw [List.mem_singleton.mp new]
      exact unlisted u among
  · have refused := @add_full s.mem t caller {} accounted.represents rfl full
    have code : (-enomem : ℤ) ≠ 0 := by decide
    refine ⟨t, ?_⟩
    rw [SessionEvent.apply, refused, if_neg code]
    exact ⟨accounted.represents, accounted.alive, accounted.listed, accounted.once⟩

/-- What is found for a placeholder that is alive. -/
theorem Accounted.wake (accounted : Accounted s t) (isAlive : s.alive caller.pid = some caller.sid) :
    ∃ p, t.find? (ofSession caller.sid) = some p ∧ p.1 = caller.sid ∧
      (findPidForThisSid {} caller s.mem).1 = p.2 := by
  have listed : (caller.sid, caller.pid) ∈ t := accounted.listed _ _ isAlive
  cases first : t.find? (ofSession caller.sid) with
  | none =>
    have other := List.find?_eq_none.mp first _ listed
    simp [ofSession] at other
  | some p =>
    refine ⟨p, rfl, find_session first, ?_⟩
    rw [accounted.found, first]
    rfl

/-- **One event keeps the table accounted for**, if placeholders wake in their turn. -/
theorem Accounted.step (accounted : Accounted s t) {e : SessionEvent} (enabled : e.Enabled s)
    (inTurn : e.InTurn s) : ∃ t', Accounted (e.apply s) t' := by
  cases e with
  | register caller => exact accounted.register enabled.1 enabled.2
  | wake caller =>
    obtain ⟨p, first, -, found⟩ := accounted.wake enabled
    have own : p.2 = caller.pid := found.symm.trans inTurn
    have removed := accounted.remove first
    rw [own] at removed
    exact ⟨_, removed⟩
  | sessionEnd caller =>
    rw [SessionEvent.apply]
    by_cases nobody : (findPidForThisSid {} caller s.mem).1 = 0
    · rw [if_pos nobody]
      exact ⟨t, accounted⟩
    · rw [if_neg nobody]
      cases first : t.find? (ofSession caller.sid) with
      | none =>
        rw [accounted.found, first] at nobody
        exact absurd rfl nobody
      | some p =>
        have found : (findPidForThisSid {} caller s.mem).1 = p.2 := by
          rw [accounted.found, first]
          rfl
        rw [found]
        exact ⟨_, accounted.remove first⟩

theorem accounted_reached (reached : SessionsReached (fun s e => e.InTurn s) s) :
    ∃ t, Accounted s t := by
  induction reached with
  | start zeroed =>
    exact ⟨[], represents_nil zeroed, fun p none_ => (by cases none_),
      fun pid sid isAlive => (by cases isAlive), List.nodup_nil⟩
  | step before e enabled meets ih =>
    obtain ⟨t, accounted⟩ := ih
    exact accounted.step enabled meets

/-- A placeholder that wakes out of its turn leaves its own entry behind. -/
theorem Accounted.out_of_turn (accounted : Accounted s t)
    (isAlive : s.alive caller.pid = some caller.sid)
    (outOfTurn : (findPidForThisSid {} caller s.mem).1 ≠ caller.pid) :
    ¬ TableAlive ((SessionEvent.wake caller).apply s) := by
  intro tableAlive
  obtain ⟨p, first, -, found⟩ := accounted.wake isAlive
  have removed := accounted.remove first
  have listed : (caller.sid, caller.pid) ∈ t.eraseP (ofSession caller.sid) := by
    refine removed.listed caller.pid caller.sid ?_
    change Function.update s.alive p.2 none caller.pid = some caller.sid
    rw [Function.update_of_ne fun same => outOfTurn (found.trans same.symm)]
    exact isAlive
  have here : (caller.sid, caller.pid) ∈ table (removePidForThisSid {} caller s.mem).mem := by
    rw [removed.represents.table]
    exact listed
  have stillAlive := tableAlive _ here
  change Function.update s.alive caller.pid none caller.pid = _ at stillAlive
  rw [Function.update_self] at stillAlive
  cases stillAlive

/-- **The table only lists placeholders that are alive**, and a session end only signals such a one, in
every run in which placeholders wake in their turn; an event after such a run keeps the table so only
if it is in turn as well. -/
theorem placeholders_alive (reached : SessionsReached (fun s e => e.InTurn s) s) :
    TableAlive s ∧
    (∀ caller, (findPidForThisSid {} caller s.mem).1 ≠ 0 →
      s.alive (findPidForThisSid {} caller s.mem).1 = some caller.sid) ∧
    ∀ e : SessionEvent, e.Enabled s → (TableAlive (e.apply s) ↔ e.InTurn s) := by
  obtain ⟨t, accounted⟩ := accounted_reached reached
  have tableAlive : ∀ {s t}, Accounted s t → TableAlive s := by
    intro s t accounted p among
    rw [accounted.represents.table] at among
    exact accounted.alive p among
  refine ⟨tableAlive accounted, fun caller some_ => ?_, fun e enabled => ⟨fun after => ?_, fun inTurn => ?_⟩⟩
  · cases first : t.find? (ofSession caller.sid) with
    | none =>
      rw [accounted.found, first] at some_
      exact absurd rfl some_
    | some p =>
      rw [accounted.found, first, ← find_session first]
      exact accounted.alive p (List.mem_of_find?_eq_some first)
  · cases e with
    | register caller => trivial
    | sessionEnd caller => trivial
    | wake caller =>
      by_contra outOfTurn
      exact accounted.out_of_turn enabled outOfTurn after
  · obtain ⟨t', accounted'⟩ := accounted.step enabled inTurn
    exact tableAlive accounted'

/-- Two placeholders of one session. -/
def olderPlaceholder : Caller := ⟨5, 100⟩
def youngerPlaceholder : Caller := ⟨5, 101⟩

/-- The state after the older one has registered, and after both have. -/
def oneRegistered : Sessions :=
  (SessionEvent.register olderPlaceholder).apply ⟨fun _ => 0, fun _ => none⟩
def bothRegistered : Sessions := (SessionEvent.register youngerPlaceholder).apply oneRegistered

theorem oneRegistered_spec : Represents oneRegistered.mem [(5, 100)] ∧
    oneRegistered.alive = Function.update (fun _ => none) 100 (some 5) :=
  register_room (s := ⟨fun _ => 0, fun _ => none⟩) (represents_nil fun _ _ => rfl) (by decide) (by decide)

theorem bothRegistered_spec : Represents bothRegistered.mem [(5, 100), (5, 101)] ∧
    bothRegistered.alive = Function.update (Function.update (fun _ => none) 100 (some 5)) 101 (some 5) := by
  obtain ⟨represents, alive⟩ := oneRegistered_spec
  obtain ⟨represents', alive'⟩ := @register_room _ _ youngerPlaceholder represents (by decide) (by decide)
  rw [alive] at alive'
  exact ⟨represents', alive'⟩

theorem bothRegistered_reached {cond : Sessions → SessionEvent → Prop}
    (registers : ∀ s caller, cond s (.register caller)) : SessionsReached cond bothRegistered := by
  refine .step (.step (.start fun _ _ => rfl) (.register olderPlaceholder) ⟨by decide, rfl⟩
    (registers _ _)) (.register youngerPlaceholder) ⟨by decide, ?_⟩ (registers _ _)
  exact (congrFun oneRegistered_spec.2 101).trans (by decide)

/-- The older placeholder wakes in its turn. -/
theorem placeholders_alive_older :
    TableAlive ((SessionEvent.wake olderPlaceholder).apply bothRegistered) := by
  have reached := @bothRegistered_reached (fun s e => e.InTurn s) fun _ _ => trivial
  obtain ⟨represents, alive⟩ := bothRegistered_spec
  refine ((placeholders_alive reached).2.2 _ ?_).mpr ?_
  · exact (congrFun alive 100).trans (by decide)
  · exact (@find_spec _ _ olderPlaceholder {} represents rfl rfl).2.2

/-- The younger placeholder wakes first: it removes the entry of the older one and exits, and the next
session end signals a process that is gone. -/
theorem stale_pid_signalled : ∃ s, SessionsReached (fun _ _ => True) s ∧ ¬ TableAlive s ∧
    (findPidForThisSid {} ⟨5, 7⟩ s.mem).1 = 101 ∧ s.alive 101 = none := by
  obtain ⟨represents, alive⟩ := bothRegistered_spec
  have isAlive : bothRegistered.alive youngerPlaceholder.pid = some youngerPlaceholder.sid :=
    (congrFun alive 101).trans (by decide)
  have after : Represents ((SessionEvent.wake youngerPlaceholder).apply bothRegistered).mem [(5, 101)] :=
    (@remove_spec _ _ youngerPlaceholder {} represents rfl rfl).2.1
  have dead : ((SessionEvent.wake youngerPlaceholder).apply bothRegistered).alive 101 = none := by
    change Function.update bothRegistered.alive 101 none 101 = none
    exact Function.update_self _ _ _
  refine ⟨(SessionEvent.wake youngerPlaceholder).apply bothRegistered,
    .step (bothRegistered_reached fun _ _ => trivial) _ isAlive trivial, fun tableAlive => ?_,
    (@find_spec _ _ ⟨5, 7⟩ {} after rfl rfl).2.2, dead⟩
  have stillAlive := tableAlive (5, 101) (by rw [after.table]; simp)
  rw [dead] at stillAlive
  cases stillAlive

end Ecryptfs
