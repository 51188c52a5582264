import Mathlib.Logic.Relation
import Mathlib.Tactic

/-!
# The semaphore around the table

Every process that works on the table goes through `get_zombie_shared_mem_locked`, which gets or
creates a semaphore, takes it, and gets or creates the shared memory; it gives the semaphore back
when it is done.  Here each process stands in front of its next system call, and a step of the system
is one such call with one of its outcomes.

A call of `zombie_semaphore_lock` reports nothing: after three tries, or after an error, its caller
goes on as if it had the semaphore.  Where no process does that, the semaphore protects the table
(`zombie_mutex`); two processes are enough to see what happens otherwise.
-/

namespace Ecryptfs

/-- The calls of `get_zombie_shared_mem_locked`: a placeholder registers, and later wakes; a session
end clears a placeholder; and the placeholders are listed. -/
inductive Visit where
  | register
  | wake
  | clear
  | list
  deriving DecidableEq

/-- The calls that get the shared memory under the semaphore. -/
inductive ShmCall where
  | create
  | attach
  | detach
  | get
  deriving DecidableEq

/-- The system call in front of which a process stands; `id` is the semaphore it works with. -/
inductive ZombiePc where
  | semCreate (v : Visit)
  | semInit (v : Visit) (id : ℕ)
  | semRemove (id : ℕ)
  | semGet (v : Visit)
  | semStat (v : Visit) (id tries : ℕ)
  | lock (v : Visit) (id tries : ℕ)
  | shm (v : Visit) (id : ℕ) (call : ShmCall)
  /-- The unlock of an error exit of `get_zombie_shared_mem_locked`. -/
  | undo (id : ℕ)
  /-- `get_zombie_shared_mem_locked` has returned 0, and the table is worked on. -/
  | inside (v : Visit) (id : ℕ)
  /-- The unlock that belongs to the return. -/
  | unlock (v : Visit) (id : ℕ) (success : Bool)
  | asleep
  | done
  deriving DecidableEq

def retryLimit : ℕ := 3

/-- The processes, and the semaphores: the one that the key leads to, the values and the flags
`sem_otime != 0` of all there have been, and the identifier for a new one. -/
structure ZombieState (ι : Type) where
  pc : ι → ZombiePc
  current : Option ℕ
  value : ℕ → ℕ
  used : ℕ → Bool
  next : ℕ

variable {ι : Type} [DecidableEq ι]

namespace ZombieState

/-- Process `p` goes on to its next call. -/
def goto (s : ZombieState ι) (p : ι) (pc : ZombiePc) : ZombieState ι :=
  { s with pc := Function.update s.pc p pc }

/-- A `semop` on semaphore `id` that leaves it with a value. -/
def semop (s : ZombieState ι) (id value : ℕ) : ZombieState ι :=
  { s with value := Function.update s.value id value, used := Function.update s.used id true }

end ZombieState

/-- What follows the unlock: a placeholder that has registered goes to sleep. -/
def afterUnlock (v : Visit) (success : Bool) : ZombiePc :=
  if v = .register ∧ success then .asleep else .done

/-- One system call of process `p`. -/
inductive ZombieStep (s : ZombieState ι) (p : ι) : ZombieState ι → Prop
  | semCreated {v} (here : s.pc p = .semCreate v) (absent : s.current = none) :
      ZombieStep s p { s.goto p (.semInit v s.next) with
        current := some s.next
        value := Function.update s.value s.next 0
        used := Function.update s.used s.next false
        next := s.next + 1 }
  | semExists {v id} (here : s.pc p = .semCreate v) (present : s.current = some id) :
      ZombieStep s p (s.goto p (.semGet v))
  | semCreateFailed {v} (here : s.pc p = .semCreate v) : ZombieStep s p (s.goto p .done)
  | initialized {v id} (here : s.pc p = .semInit v id) (present : s.current = some id) :
      ZombieStep s p ((s.semop id (s.value id + 1)).goto p (.lock v id 0))
  | initFailed {v id} (here : s.pc p = .semInit v id) : ZombieStep s p (s.goto p (.semRemove id))
  | removed {id} (here : s.pc p = .semRemove id) :
      ZombieStep s p { s.goto p .done with current := none }
  | semGot {v id} (here : s.pc p = .semGet v) (present : s.current = some id) :
      ZombieStep s p (s.goto p (.semStat v id 0))
  | semGetFailed {v} (here : s.pc p = .semGet v) : ZombieStep s p (s.goto p .done)
  | statInitialized {v id tries} (here : s.pc p = .semStat v id tries)
      (used : s.current = some id → s.used id = true) : ZombieStep s p (s.goto p (.lock v id 0))
  | statAgain {v id tries} (here : s.pc p = .semStat v id tries)
      (unused : s.current = some id → s.used id = false) (more : tries + 1 < retryLimit) :
      ZombieStep s p (s.goto p (.semStat v id (tries + 1)))
  | statTooLong {v id tries} (here : s.pc p = .semStat v id tries)
      (unused : s.current = some id → s.used id = false) (last : retryLimit ≤ tries + 1) :
      ZombieStep s p (s.goto p .done)
  | locked {v id tries} (here : s.pc p = .lock v id tries) (present : s.current = some id)
      (free : 1 ≤ s.value id) :
      ZombieStep s p ((s.semop id (s.value id - 1)).goto p (.shm v id .create))
  | lockAgain {v id tries} (here : s.pc p = .lock v id tries)
      (busy : s.current = some id → s.value id = 0) (more : tries + 1 < retryLimit) :
      ZombieStep s p (s.goto p (.lock v id (tries + 1)))
  /-- The tries are used up; the caller is not told. -/
  | lockExhausted {v id tries} (here : s.pc p = .lock v id tries)
      (busy : s.current = some id → s.value id = 0) (last : retryLimit ≤ tries + 1) :
      ZombieStep s p (s.goto p (.shm v id .create))
  /-- An error other than `EAGAIN`; the caller is not told either. -/
  | lockFailed {v id tries} (here : s.pc p = .lock v id tries) :
      ZombieStep s p (s.goto p (.shm v id .create))
  | shmExists {v id} (here : s.pc p = .shm v id .create) :
      ZombieStep s p (s.goto p (.shm v id .get))
  /-- The segment is new; an identifier that is an error is only noticed by `shmat`. -/
  | shmCreated {v id} (here : s.pc p = .shm v id .create) :
      ZombieStep s p (s.goto p (.shm v id .attach))
  | shmAttached {v id} (here : s.pc p = .shm v id .attach) :
      ZombieStep s p (s.goto p (.shm v id .detach))
  | shmDetached {v id} (here : s.pc p = .shm v id .detach) :
      ZombieStep s p (s.goto p (.shm v id .get))
  | shmFailed {v id call} (here : s.pc p = .shm v id call) (late : call ≠ .create) :
      ZombieStep s p (s.goto p (.undo id))
  | shmGot {v id} (here : s.pc p = .shm v id .get) : ZombieStep s p (s.goto p (.inside v id))
  | undone {id} (here : s.pc p = .undo id) (present : s.current = some id) :
      ZombieStep s p ((s.semop id (s.value id + 1)).goto p .done)
  | undoFailed {id} (here : s.pc p = .undo id) : ZombieStep s p (s.goto p .done)
  /-- The work on the table is done, successfully or not. -/
  | worked {v id} (here : s.pc p = .inside v id) (success : Bool) :
      ZombieStep s p (s.goto p (.unlock v id success))
  /-- The session end kills a process. -/
  | kills {id} (here : s.pc p = .inside .clear id) (q : ι) : ZombieStep s p (s.goto q .done)
  | unlocked {v id success} (here : s.pc p = .unlock v id success) (present : s.current = some id) :
      ZombieStep s p ((s.semop id (s.value id + 1)).goto p (afterUnlock v success))
  | unlockFailed {v id success} (here : s.pc p = .unlock v id success) :
      ZombieStep s p (s.goto p (afterUnlock v success))
  | wakes (here : s.pc p = .asleep) : ZombieStep s p (s.goto p (.semCreate .wake))

/-- Process `p` goes on without having taken the semaphore. -/
def GivesUp (s : ZombieState ι) (p : ι) (s' : ZombieState ι) : Prop :=
  ∃ v id tries, s.pc p = .lock v id tries ∧ s' = s.goto p (.shm v id .create)

/-- Between the return of `get_zombie_shared_mem_locked` with 0 and the matching unlock. -/
def ZombiePc.InSection : ZombiePc → Prop
  | .inside _ _ => True
  | .unlock _ _ _ => True
  | _ => False

/-- No process has begun, and there is no semaphore. -/
structure ZombieState.Initial (s : ZombieState ι) : Prop where
  begin_ : ∀ p, s.pc p = .done ∨ ∃ v, s.pc p = .semCreate v
  absent : s.current = none
  zero : ∀ id, s.value id = 0

/-! ## Owners -/

/-- The semaphore that a process has created and not initialized yet, or has taken. -/
def ZombiePc.owns : ZombiePc → Option ℕ
  | .semInit _ id => some id
  | .semRemove id => some id
  | .shm _ id _ => some id
  | .undo id => some id
  | .inside _ id => some id
  | .unlock _ id _ => some id
  | _ => none

theorem ZombiePc.InSection.owns {pc : ZombiePc} (inSection : pc.InSection) : ∃ id, pc.owns = some id := by
  cases pc with
  | inside v id => exact ⟨id, rfl⟩
  | unlock v id success => exact ⟨id, rfl⟩
  | _ => exact inSection.elim

theorem owns_afterUnlock (v : Visit) (success : Bool) : (afterUnlock v success).owns = none := by
  unfold afterUnlock
  split_ifs <;> rfl

/-- There is at most one owner, and while there is one the semaphore has the value 0. -/
structure OneOwner (s : ZombieState ι) : Prop where
  unique : ∀ p q id id', (s.pc p).owns = some id → (s.pc q).owns = some id' → p = q
  owned : ∀ p id, (s.pc p).owns = some id → s.current = some id ∧ s.value id = 0
  bounded : ∀ id, s.value id ≤ 1
  live : ∀ id, s.value id = 1 → s.current = some id

variable {s s' : ZombieState ι} {p : ι} {pc : ZombiePc} {id : ℕ}

omit [DecidableEq ι] in
theorem OneOwner.start (initial : s.Initial) : OneOwner s := by
  have nobody : ∀ p id, (s.pc p).owns ≠ some id := by
    intro p id isOwner
    rcases initial.begin_ p with isDone | ⟨v, isStart⟩
    · rw [isDone] at isOwner
      cases isOwner
    · rw [isStart] at isOwner
      cases isOwner
  refine ⟨fun p _ id _ isOwner => absurd isOwner (nobody p id), fun p id isOwner => absurd isOwner (nobody p id),
    fun id => ?_, fun id one => ?_⟩
  · rw [initial.zero id]
    exact Nat.zero_le 1
  · rw [initial.zero id] at one
    cases one

/-- The owners after process `p` has gone on. -/
theorem owns_goto {q : ι} {id' : ℕ} (isOwner : ((s.goto p pc).pc q).owns = some id') :
    (q = p ∧ pc.owns = some id') ∨ (q ≠ p ∧ (s.pc q).owns = some id') := by
  change (Function.update s.pc p pc q).owns = some id' at isOwner
  by_cases same : q = p
  · rw [same, Function.update_self] at isOwner
    exact .inl ⟨same, isOwner⟩
  · rw [Function.update_of_ne same] at isOwner
    exact .inr ⟨same, isOwner⟩

/-- A process goes on without being an owner. -/
theorem OneOwner.goto_free (inv : OneOwner s) (free : pc.owns = none) : OneOwner (s.goto p pc) := by
  have before : ∀ q id, ((s.goto p pc).pc q).owns = some id → (s.pc q).owns = some id := by
    intro q id isOwner
    rcases owns_goto isOwner with ⟨-, isOwner⟩ | ⟨-, isOwner⟩
    · rw [free] at isOwner
      cases isOwner
    · exact isOwner
  exact ⟨fun q r id id' first second => inv.unique q r id id' (before q id first) (before r id' second),
    fun q id isOwner => inv.owned q id (before q id isOwner), inv.bounded, inv.live⟩

/-- An owner goes on as one. -/
theorem OneOwner.goto_keep (inv : OneOwner s) (isOwner : (s.pc p).owns = some id)
    (keeps : pc.owns = some id) : OneOwner (s.goto p pc) := by
  have before : ∀ q id, ((s.goto p pc).pc q).owns = some id → (s.pc q).owns = some id := by
    intro q id' isOwner'
    rcases owns_goto isOwner' with ⟨rfl, same⟩ | ⟨-, isOwner'⟩
    · rw [← same, keeps, isOwner]
    · exact isOwner'
  exact ⟨fun q r id id' first second => inv.unique q r id id' (before q id first) (before r id' second),
    fun q id isOwner => inv.owned q id (before q id isOwner), inv.bounded, inv.live⟩

/-- The owner gives the semaphore back. -/
theorem OneOwner.release (inv : OneOwner s) (isOwner : (s.pc p).owns = some id)
    (free : pc.owns = none) : OneOwner ((s.semop id (s.value id + 1)).goto p pc) := by
  obtain ⟨present, zero⟩ := inv.owned p id isOwner
  have nobody : ∀ q id', (((s.semop id (s.value id + 1)).goto p pc).pc q).owns ≠ some id' := by
    intro q id' isOwner'
    rcases owns_goto isOwner' with ⟨-, isOwner'⟩ | ⟨other, isOwner'⟩
    · rw [free] at isOwner'
      cases isOwner'
    · exact other (inv.unique q p id' id isOwner' isOwner)
  refine ⟨fun q _ id _ isOwner => absurd isOwner (nobody q id),
    fun q id isOwner => absurd isOwner (nobody q id), fun id' => ?_, fun id' one => ?_⟩
  · change Function.update s.value id (s.value id + 1) id' ≤ 1
    rw [Function.update_apply]
    split_ifs
    · rw [zero]
    · exact inv.bounded id'
  · change Function.update s.value id (s.value id + 1) id' = 1 at one
    rw [Function.update_apply] at one
    split_ifs at one with same
    · rw [same]
      exact present
    · exact inv.live id' one

/-- A process takes the free semaphore. -/
theorem OneOwner.acquire (inv : OneOwner s) (present : s.current = some id) (free : 1 ≤ s.value id)
    (keeps : pc.owns = some id) : OneOwner ((s.semop id (s.value id - 1)).goto p pc) := by
  have one : s.value id = 1 := le_antisymm (inv.bounded id) free
  have nobody : ∀ q id', (s.pc q).owns ≠ some id' := by
    intro q id' isOwner
    obtain ⟨present', zero⟩ := inv.owned q id' isOwner
    obtain rfl := Option.some.inj (present.symm.trans present')
    rw [one] at zero
    cases zero
  have onlyP : ∀ q id', (((s.semop id (s.value id - 1)).goto p pc).pc q).owns = some id' →
      q = p ∧ id' = id := by
    intro q id' isOwner
    rcases owns_goto isOwner with ⟨same, isOwner'⟩ | ⟨-, isOwner'⟩
    · exact ⟨same, Option.some.inj (isOwner'.symm.trans keeps)⟩
    · exact absurd isOwner' (nobody q id')
  refine ⟨fun q r id₁ id₂ first second => ?_, fun q id' isOwner => ?_, fun id' => ?_, fun id' isOne => ?_⟩
  · rw [(onlyP q id₁ first).1, (onlyP r id₂ second).1]
  · obtain ⟨-, rfl⟩ := onlyP q id' isOwner
    refine ⟨present, ?_⟩
    change Function.update s.value id' (s.value id' - 1) id' = 0
    rw [Function.update_self, one]
  · change Function.update s.value id (s.value id - 1) id' ≤ 1
    rw [Function.update_apply]
    split_ifs
    · rw [one]
      exact Nat.zero_le 1
    · exact inv.bounded id'
  · change Function.update s.value id (s.value id - 1) id' = 1 at isOne
    rw [Function.update_apply] at isOne
    split_ifs at isOne
    · rw [one] at isOne
      cases isOne
    · exact inv.live id' isOne

/-- A process creates the semaphore. -/
theorem OneOwner.create (inv : OneOwner s) (absent : s.current = none) (v : Visit) :
    OneOwner ({ s.goto p (.semInit v s.next) with
      current := some s.next
      value := Function.update s.value s.next 0
      used := Function.update s.used s.next false
      next := s.next + 1 } : ZombieState ι) := by
  have onlyP : ∀ q id', ((s.goto p (.semInit v s.next)).pc q).owns = some id' →
      q = p ∧ id' = s.next := by
    intro q id' isOwner
    rcases owns_goto isOwner with ⟨same, isNext⟩ | ⟨-, isOwner'⟩
    · exact ⟨same, (Option.some.inj isNext).symm⟩
    · have present := (inv.owned q id' isOwner').1
      rw [absent] at present
      cases present
  have zero : ∀ id', Function.update s.value s.next 0 id' = 0 := by
    intro id'
    rw [Function.update_apply]
    split_ifs
    · rfl
    · have low := inv.bounded id'
      have notOne : s.value id' ≠ 1 := by
        intro one
        have present := inv.live id' one
        rw [absent] at present
        cases present
      omega
  refine ⟨fun q r id₁ id₂ first second => ?_, fun q id' isOwner => ?_, fun id' => ?_, fun id' one => ?_⟩
  · rw [(onlyP q id₁ first).1, (onlyP r id₂ second).1]
  · obtain ⟨-, rfl⟩ := onlyP q id' isOwner
    exact ⟨rfl, zero _⟩
  · exact (zero id').trans_le (Nat.zero_le 1)
  · exact absurd ((zero id').symm.trans one) (by decide)

/-- The owner removes the semaphore. -/
theorem OneOwner.remove (inv : OneOwner s) (isOwner : (s.pc p).owns = some id) :
    OneOwner ({ s.goto p .done with current := none } : ZombieState ι) := by
  obtain ⟨present, zero⟩ := inv.owned p id isOwner
  have nobody : ∀ q id', ((s.goto p .done).pc q).owns ≠ some id' := by
    intro q id' isOwner'
    rcases owns_goto isOwner' with ⟨-, none_⟩ | ⟨other, isOwner'⟩
    · cases none_
    · exact other (inv.unique q p id' id isOwner' isOwner)
  refine ⟨fun q _ id _ isOwner => absurd isOwner (nobody q id),
    fun q id isOwner => absurd isOwner (nobody q id), inv.bounded, fun id' one => ?_⟩
  obtain rfl := Option.some.inj ((inv.live id' one).symm.trans present)
  exact absurd (zero.symm.trans one) (by decide)

/-- **One step keeps a single owner**, unless a process goes on without the semaphore. -/
theorem OneOwner.step (inv : OneOwner s) (step : ZombieStep s p s') (locks : ¬ GivesUp s p s') :
    OneOwner s' := by
  cases step with
  | semCreated here absent => exact inv.create absent _
  | semExists here present => exact inv.goto_free rfl
  | semCreateFailed here => exact inv.goto_free rfl
  | initialized here present => exact inv.release (by rw [here]; rfl) rfl
  | initFailed here => exact inv.goto_keep (by rw [here]; rfl) rfl
  | removed here => exact inv.remove (by rw [here]; rfl)
  | semGot here present => exact inv.goto_free rfl
  | semGetFailed here => exact inv.goto_free rfl
  | statInitialized here used => exact inv.goto_free rfl
  | statAgain here unused more => exact inv.goto_free rfl
  | statTooLong here unused last => exact inv.goto_free rfl
  | locked here present free => exact inv.acquire present free rfl
  | lockAgain here busy more => exact inv.goto_free rfl
  | lockExhausted here busy last => exact absurd ⟨_, _, _, here, rfl⟩ locks
  | lockFailed here => exact absurd ⟨_, _, _, here, rfl⟩ locks
  | shmExists here => exact inv.goto_keep (by rw [here]; rfl) rfl
  | shmCreated here => exact inv.goto_keep (by rw [here]; rfl) rfl
  | shmAttached here => exact inv.goto_keep (by rw [here]; rfl) rfl
  | shmDetached here => exact inv.goto_keep (by rw [here]; rfl) rfl
  | shmFailed here late => exact inv.goto_keep (by rw [here]; rfl) rfl
  | shmGot here => exact inv.goto_keep (by rw [here]; rfl) rfl
  | undone here present => exact inv.release (by rw [here]; rfl) rfl
  | undoFailed here => exact inv.goto_free rfl
  | worked here success => exact inv.goto_keep (by rw [here]; rfl) rfl
  | kills here q => exact inv.goto_free rfl
  | unlocked here present => exact inv.release (by rw [here]; rfl) (owns_afterUnlock _ _)
  | unlockFailed here => exact inv.goto_free (owns_afterUnlock _ _)
  | wakes here => exact inv.goto_free rfl

/-- The runs of the system, with any interleaving. -/
def ZombieRun (s s' : ZombieState ι) : Prop :=
  Relation.ReflTransGen (fun a b => ∃ p, ZombieStep a p b) s s'

/-- The runs in which every call of `zombie_semaphore_lock` takes the semaphore. -/
def LockingRun (s s' : ZombieState ι) : Prop :=
  Relation.ReflTransGen (fun a b => ∃ p, ZombieStep a p b ∧ ¬ GivesUp a p b) s s'

/-- The semaphore protects the table in a state. -/
def Protected (s : ZombieState ι) : Prop :=
  (∀ p q, (s.pc p).InSection → (s.pc q).InSection → p = q) ∧ ∀ id, s.value id ≤ 1

/-- **The semaphore protects the table** in every run in which no process goes on without it. -/
theorem zombie_mutex {start : ZombieState ι} (initial : start.Initial) (run : LockingRun start s) :
    Protected s := by
  have inv : OneOwner s := by
    induction run with
    | refl => exact .start initial
    | tail _ step ih =>
      obtain ⟨p, stepped, locks⟩ := step
      exact ih.step stepped locks
  refine ⟨fun p q first second => ?_, inv.bounded⟩
  obtain ⟨id, isOwner⟩ := first.owns
  obtain ⟨id', isOwner'⟩ := second.owns
  exact inv.unique p q id id' isOwner isOwner'

/-- A placeholder and a session end that have not begun yet. -/
def twoProcesses : ZombieState Bool where
  pc p := .semCreate (if p then .clear else .register)
  current := none
  value _ := 0
  used _ := false
  next := 0

theorem twoProcesses_initial : twoProcesses.Initial := ⟨fun _ => .inr ⟨_, rfl⟩, rfl, fun _ => rfl⟩

/-- The first process creates the semaphore and the shared memory, and works on the table. -/
theorem first_inside : ∃ s, LockingRun twoProcesses s ∧ s.pc false = .inside .register 0 ∧
    s.pc true = .semCreate .clear ∧ s.current = some 0 ∧ s.value 0 = 0 ∧ s.used 0 = true := by
  have noLock : ∀ {a b : ZombieState Bool} {p}, (∀ v id tries, a.pc p ≠ .lock v id tries) → ¬ GivesUp a p b := by
    rintro a b p other ⟨v, id, tries, here, -⟩
    exact other v id tries here
  refine ⟨_, .tail (.tail (.tail (.tail (.tail (.tail (.tail .refl
    ⟨false, .semCreated rfl rfl, noLock (by simp [twoProcesses])⟩)
    ⟨false, .initialized rfl rfl, noLock fun _ _ _ h => by cases h⟩)
    ⟨false, .locked rfl rfl (le_refl _), ?_⟩)
    ⟨false, .shmCreated rfl, noLock fun _ _ _ h => by cases h⟩)
    ⟨false, .shmAttached rfl, noLock fun _ _ _ h => by cases h⟩)
    ⟨false, .shmDetached rfl, noLock fun _ _ _ h => by cases h⟩)
    ⟨false, .shmGot rfl, noLock fun _ _ _ h => by cases h⟩, rfl, rfl, rfl, rfl, rfl⟩
  rintro ⟨v, id, tries, here, same⟩
  have values := congrArg (fun s : ZombieState Bool => s.value 0) same
  cases values

/-- While the placeholder registers, nobody else is inside. -/
theorem zombie_mutex_register :
    ∃ s, LockingRun twoProcesses s ∧ s.pc false = .inside .register 0 ∧ Protected s := by
  obtain ⟨s, run, inside, -⟩ := first_inside
  exact ⟨s, run, inside, zombie_mutex twoProcesses_initial run⟩

theorem LockingRun.run (run : LockingRun s s') : ZombieRun s s' := by
  induction run with
  | refl => exact .refl
  | tail _ step ih =>
    obtain ⟨p, stepped, -⟩ := step
    exact ih.tail ⟨p, stepped⟩

/-- The session end tries three times to take the semaphore, and goes on without it. -/
theorem second_inside {s : ZombieState Bool} (start : s.pc true = .semCreate .clear)
    (present : s.current = some 0) (zero : s.value 0 = 0) (used : s.used 0 = true) :
    ZombieRun s (s.goto true (.inside .clear 0)) := by
  have again : ∀ (pc pc' : ZombiePc), (s.goto true pc).goto true pc' = s.goto true pc' := by
    intro pc pc'
    unfold ZombieState.goto
    simp
  have steps : ∀ {pc pc'}, ZombieStep (s.goto true pc) true ((s.goto true pc).goto true pc') →
      ∃ p, ZombieStep (s.goto true pc) p (s.goto true pc') := by
    intro pc pc' step
    rw [again] at step
    exact ⟨true, step⟩
  refine .tail (.tail (.tail (.tail (.tail (.tail (.tail (.tail .refl
    ⟨true, .semExists start present⟩)
    (steps (.semGot rfl present))) (steps (.statInitialized rfl fun _ => used)))
    (steps (.lockAgain rfl (fun _ => zero) (by decide))))
    (steps (.lockAgain rfl (fun _ => zero) (by decide))))
    (steps (.lockExhausted rfl (fun _ => zero) (by decide))))
    (steps (.shmExists rfl))) (steps (.shmGot rfl))

/-- A slow placeholder: the session end comes in as well, and with both unlocks the semaphore has the
value 2. -/
theorem two_inside : twoProcesses.Initial ∧
    (∃ s, ZombieRun twoProcesses s ∧ (s.pc false).InSection ∧ (s.pc true).InSection) ∧
    ∃ s, ZombieRun twoProcesses s ∧ s.value 0 = 2 := by
  obtain ⟨s, run, inside, start, present, zero, used⟩ := first_inside
  have both := run.run.trans (second_inside start present zero used)
  have placeholder : (s.goto true (.inside .clear 0)).pc false = .inside .register 0 := inside
  refine ⟨twoProcesses_initial, ⟨_, both, ?_, trivial⟩, ?_⟩
  · rw [placeholder]
    trivial
  · refine ⟨_, .tail (.tail (.tail (.tail both ⟨false, .worked placeholder true⟩)
      ⟨false, .unlocked rfl present⟩) ⟨true, .worked rfl true⟩) ⟨true, .unlocked rfl present⟩, ?_⟩
    change s.value 0 + 1 + 1 = 2
    rw [zero]

end Ecryptfs
