import Mathlib.Logic.Relation
import Ecryptfs.CString
import Ecryptfs.Lib.LinkedList

/-!
# The tickets of the module `tspi`

A thread that talks to the TPM grabs one of ten tickets and releases it afterwards.  The tickets are in
two linked lists, the free and the used ones.  Both operations take a ticket out of its list by moving
the head of the list to what is behind the ticket, which is right only for the ticket in front.  A
thread that finds no free ticket waits for a used one, and gets it when its holder has put it among the
free ones.

The lists stay what they should be as long as each release is one of the ticket in front of the used
list, and each thread that gets its ticket gets a used one (`ticketsRight_of_orderly`).
-/

namespace Ecryptfs

open LinkedList

/-- `ECRYPTFS_TSPI_DEFAULT_MAX_NUM_CONNECTIONS`. -/
abbrev maxNumConnections : ℕ := 10

/-- A ticket, by the number of its allocation. -/
abbrev Ticket := Fin maxNumConnections

/-- Where a thread stands: outside, or in `ecryptfs_tspi_grab_ticket` behind the list lock, there with
the lock `wait` of the ticket as well, or behind its return. -/
inductive TicketPc where
  | idle
  | waiting (t : Ticket)
  | entering (t : Ticket)
  | holding (t : Ticket)
  deriving DecidableEq

/-- The threads, the fields of the tickets, and the variables of the module.  The lock `lock` of a
ticket is only ever held within one step and left out; the lock `wait`, which nothing initializes, is
taken to be free at first. -/
structure TicketPool (ι : Type) where
  pc : ι → TicketPc
  next : Ticket → Option Ticket
  initialized : Ticket → Bool
  waitLocked : Ticket → Bool
  numPending : Ticket → UInt32
  freeHead : Option Ticket
  usedHead : Option Ticket
  numFree : UInt32
  numUsed : UInt32
  numConnected : UInt32

variable {ι : Type}

namespace TicketPool

/-- Before `ecryptfs_tspi_init`; the locks `wait` are what their memory makes them, and that is free. -/
def empty : TicketPool ι where
  pc _ := .idle
  next _ := none
  initialized _ := false
  waitLocked _ := false
  numPending _ := 0
  freeHead := none
  usedHead := none
  numFree := 0
  numUsed := 0
  numConnected := 0

/-- The next ticket of `ecryptfs_tspi_init`. -/
def allocate (s : TicketPool ι) (t : Ticket) : TicketPool ι :=
  { s with
    next := Function.update s.next t s.freeHead
    initialized := Function.update s.initialized t false
    numPending := Function.update s.numPending t 0
    freeHead := some t
    numFree := s.numFree + 1 }

/-- `ecryptfs_tspi_init`, with memory for everything. -/
def tspiInit : TicketPool ι := (List.finRange maxNumConnections).foldl allocate empty

section

variable [DecidableEq ι]

/-- Thread `p` goes on. -/
def goto (s : TicketPool ι) (p : ι) (pc : TicketPc) : TicketPool ι :=
  { s with pc := Function.update s.pc p pc }

end

/-- The context of a ticket is created and connected. -/
def connect (s : TicketPool ι) (t : Ticket) : TicketPool ι :=
  { s with
    initialized := Function.update s.initialized t true
    numConnected := s.numConnected + 1 }

/-- `num_pending` changes. -/
def setPending (s : TicketPool ι) (t : Ticket) (n : UInt32) : TicketPool ι :=
  { s with numPending := Function.update s.numPending t n }

/-- The list update of `ecryptfs_tspi_grab_ticket`. -/
def grab (s : TicketPool ι) (t : Ticket) : TicketPool ι :=
  { s with
    freeHead := s.next t
    next := Function.update s.next t s.usedHead
    usedHead := some t
    numFree := s.numFree - 1
    numUsed := s.numUsed + 1
    numPending := Function.update s.numPending t (s.numPending t + 1) }

/-- `ecryptfs_tspi_release_ticket`. -/
def release (s : TicketPool ι) (t : Ticket) : TicketPool ι :=
  { s with
    waitLocked := Function.update s.waitLocked t false
    usedHead := s.next t
    next := Function.update s.next t s.freeHead
    freeHead := some t
    numFree := s.numFree + 1
    numUsed := s.numUsed - 1 }

end TicketPool

/-- The loop over the used tickets that keeps the one with the fewest threads pending so far. -/
inductive LeastPending (s : TicketPool ι) : Ticket → Option Ticket → Ticket → Prop
  | done {t} : LeastPending s t none t
  | next {t u r}
      (rest : LeastPending s (if s.numPending u < s.numPending t then u else t) (s.next u) r) :
      LeastPending s t (some u) r

variable [DecidableEq ι]

/-- One step of thread `p`: what it does under the list lock, and the two steps behind it. -/
inductive TicketStep (s : TicketPool ι) (p : ι) : TicketPool ι → Prop
  | grabInitialized {t} (here : s.pc p = .idle)
      (found : Search s.next s.initialized s.freeHead (some t)) :
      TicketStep s p ((s.grab t).goto p (.waiting t))
  | grabFresh {t} (here : s.pc p = .idle) (found : Search s.next s.initialized s.freeHead none)
      (first : s.freeHead = some t) : TicketStep s p (((s.connect t).grab t).goto p (.waiting t))
  | grabUsed {t u} (here : s.pc p = .idle) (empty : s.freeHead = none) (first : s.usedHead = some u)
      (least : LeastPending s u (s.next u) t) :
      TicketStep s p ((s.setPending t (s.numPending t + 1)).goto p (.waiting t))
  | locked {t} (here : s.pc p = .waiting t) (free : s.waitLocked t = false) :
      TicketStep s p { s.goto p (.entering t) with waitLocked := Function.update s.waitLocked t true }
  | returned {t} (here : s.pc p = .entering t) :
      TicketStep s p ((s.setPending t (s.numPending t - 1)).goto p (.holding t))
  | released {t} (here : s.pc p = .holding t) : TicketStep s p ((s.release t).goto p .idle)

/-- The two lists and what they should be. -/
structure TicketLists (s : TicketPool ι) (free used : List Ticket) : Prop where
  freeChain : Chain s.next s.freeHead free
  usedChain : Chain s.next s.usedHead used
  nodup : (free ++ used).Nodup
  all : ∀ t, t ∈ free ++ used
  held : ∀ p t, s.pc p = .holding t → t ∈ used
  numFree : s.numFree.toNat = free.length
  numUsed : s.numUsed.toNat = used.length

/-- There are two lists as they should be, and no two holders share a ticket. -/
def TicketsRight (s : TicketPool ι) : Prop :=
  (∃ free used, TicketLists s free used) ∧
    ∀ p q t, s.pc p = .holding t → s.pc q = .holding t → p = q

/-- What thread `p` does next is in order: it releases the ticket in front of the used list, and it
gets only a ticket that is in the used list. -/
def Orderly (s : TicketPool ι) (p : ι) : Prop :=
  (∀ t, s.pc p = .holding t → s.usedHead = some t) ∧
    ∀ t, s.pc p = .entering t → ∃ used, Chain s.next s.usedHead used ∧ t ∈ used

/-- A step that is in order. -/
def OrderlyStep (s s' : TicketPool ι) : Prop := ∃ p, TicketStep s p s' ∧ Orderly s p

/-! ## The invariant -/

/-- The ticket whose lock `wait` a thread has. -/
def TicketPc.owns : TicketPc → Option Ticket
  | .idle => none
  | .waiting _ => none
  | .entering t => some t
  | .holding t => some t

/-- The lists are as they should be, the tickets with a context are the used ones and those in front of
the free list, and each lock `wait` has at most one owner. -/
structure PoolInv (s : TicketPool ι) (free used : List Ticket) : Prop extends TicketLists s free used where
  usedInitialized : ∀ t ∈ used, s.initialized t = true
  freeInitialized : free.Pairwise fun t u => s.initialized u = true → s.initialized t = true
  locked : ∀ p t, (s.pc p).owns = some t → s.waitLocked t = true
  unique : ∀ p q t, (s.pc p).owns = some t → (s.pc q).owns = some t → p = q

variable {s s' : TicketPool ι} {p : ι} {free used : List Ticket} {t : Ticket}

omit [DecidableEq ι] in
theorem PoolInv.right (inv : PoolInv s free used) : TicketsRight s :=
  ⟨⟨free, used, inv.toTicketLists⟩, fun p q t isHolder isHolder' =>
    inv.unique p q t (isHolder ▸ rfl) (isHolder' ▸ rfl)⟩

theorem TicketPool.pc_goto {pc pc' : TicketPc} {q : ι} (place : (s.goto p pc).pc q = pc') :
    q = p ∧ pc = pc' ∨ q ≠ p ∧ s.pc q = pc' := by
  change Function.update s.pc p pc q = pc' at place
  rwa [Function.update_apply, ite_eq_iff] at place

/-- The holders after a thread has gone on without being one. -/
theorem TicketPool.holding_goto {pc : TicketPc} (notHolding : ∀ t, pc ≠ .holding t) {q : ι}
    (isHolder : (s.goto p pc).pc q = .holding t) : s.pc q = .holding t := by
  rcases TicketPool.pc_goto isHolder with ⟨-, new⟩ | ⟨-, old⟩
  · exact absurd new (notHolding t)
  · exact old

/-- The owners after a thread has gone on as an owner of what it has already, or of nothing. -/
theorem TicketPool.owns_goto {pc : TicketPc} (keeps : ∀ t, pc.owns = some t → (s.pc p).owns = some t)
    {q : ι} (isOwner : ((s.goto p pc).pc q).owns = some t) : (s.pc q).owns = some t := by
  rcases @TicketPool.pc_goto _ _ s p pc _ q rfl with ⟨same, new⟩ | ⟨-, old⟩
  · rw [← new] at isOwner
    rw [same]
    exact keeps t isOwner
  · rw [old]
    exact isOwner

omit [DecidableEq ι] in
/-- No list is longer than the number of tickets. -/
theorem TicketLists.length_le (lists : TicketLists s free used) : free.length + used.length ≤ 10 := by
  have few := lists.nodup.length_le_card
  rw [List.length_append, Fintype.card_fin] at few
  exact few

theorem toNat_sub_one {x : UInt32} {n : ℕ} (value : x.toNat = n + 1) : (x - 1).toNat = n := by
  rw [UInt32.toNat_sub_of_le _ _ (UInt32.le_iff_toNat_le.mpr (by rw [value]; simp)), value]
  simp

theorem toNat_add_one {x : UInt32} {n : ℕ} (value : x.toNat = n) (small : n < 10) :
    (x + 1).toNat = n + 1 := by
  rw [UInt32.toNat_add, value]
  simp only [UInt32.toNat_one]
  omega

/-- The list update of a grab, of the ticket in front of the free list. -/
theorem PoolInv.grab (inv : PoolInv s (t :: free) used) (initialized : s.initialized t = true) :
    PoolInv ((s.grab t).goto p (.waiting t)) free (t :: used) := by
  have nodup : (t :: (free ++ used)).Nodup := inv.nodup
  have notAmong : t ∉ free ++ used := (List.nodup_cons.mp nodup).1
  have notFree : t ∉ free := fun among => notAmong (List.mem_append_left used among)
  have notUsed : t ∉ used := fun among => notAmong (List.mem_append_right free among)
  have moved : (free ++ t :: used).Perm (t :: free ++ used) := List.perm_middle
  have few : free.length + 1 + used.length ≤ 10 := inv.toTicketLists.length_le
  have owners : ∀ {q u}, (((s.grab t).goto p (.waiting t)).pc q).owns = some u →
      (s.pc q).owns = some u := fun isOwner => TicketPool.owns_goto (by simp [TicketPc.owns]) isOwner
  exact
    { freeChain := (inv.freeChain.2).update notFree _
      usedChain := inv.usedChain.push notUsed
      nodup := moved.nodup_iff.mpr inv.nodup
      all := fun u => moved.mem_iff.mpr (inv.all u)
      held := fun q u isHolder =>
        List.mem_cons_of_mem t (inv.held q u (TicketPool.holding_goto (by simp) isHolder))
      numFree := toNat_sub_one inv.numFree
      numUsed := toNat_add_one inv.numUsed (by omega)
      usedInitialized := List.forall_mem_cons.mpr ⟨initialized, inv.usedInitialized⟩
      freeInitialized := (List.pairwise_cons.mp inv.freeInitialized).2
      locked := fun q u isOwner => inv.locked q u (owners isOwner)
      unique := fun q r u first second => inv.unique q r u (owners first) (owners second) }

/-- The list update of a release, of the ticket in front of the used list. -/
theorem PoolInv.release (inv : PoolInv s free (t :: used)) (here : s.pc p = .holding t) :
    PoolInv ((s.release t).goto p .idle) (t :: free) used := by
  have moved : (free ++ t :: used).Perm (t :: free ++ used) := List.perm_middle
  have notAmong : t ∉ free ++ used := (List.nodup_cons.mp (moved.nodup_iff.mp inv.nodup)).1
  have notFree : t ∉ free := fun among => notAmong (List.mem_append_left used among)
  have notUsed : t ∉ used := fun among => notAmong (List.mem_append_right free among)
  have few : free.length + (used.length + 1) ≤ 10 := inv.toTicketLists.length_le
  have isOwner : (s.pc p).owns = some t := here ▸ rfl
  have owners : ∀ {q u}, (((s.release t).goto p .idle).pc q).owns = some u →
      u ≠ t ∧ (s.pc q).owns = some u := by
    intro q u isOwner'
    rcases @TicketPool.pc_goto _ _ (s.release t) p .idle _ q rfl with ⟨-, new⟩ | ⟨other, old⟩
    · rw [← new] at isOwner'
      cases isOwner'
    · rw [← old] at isOwner'
      refine ⟨?_, isOwner'⟩
      rintro rfl
      exact other (inv.unique q p u isOwner' isOwner)
  exact
    { freeChain := inv.freeChain.push notFree
      usedChain := (inv.usedChain.2).update notUsed _
      nodup := moved.nodup_iff.mp inv.nodup
      all := fun u => moved.mem_iff.mp (inv.all u)
      held := fun q u isHolder => by
        have other : u ≠ t := (owners (congrArg TicketPc.owns isHolder)).1
        exact (List.mem_cons.mp (inv.held q u (TicketPool.holding_goto (by simp) isHolder))).resolve_left
          other
      numFree := toNat_add_one inv.numFree (by omega)
      numUsed := toNat_sub_one inv.numUsed
      usedInitialized := (List.forall_mem_cons.mp inv.usedInitialized).2
      freeInitialized := List.pairwise_cons.mpr
        ⟨fun _ _ _ => inv.usedInitialized t List.mem_cons_self, inv.freeInitialized⟩
      locked := fun q u isOwner => by
        obtain ⟨other, isOwner⟩ := owners isOwner
        exact (Function.update_of_ne other _ _).trans (inv.locked q u isOwner)
      unique := fun q r u first second => inv.unique q r u (owners first).2 (owners second).2 }

/-- A thread goes on without changing the lists. -/
theorem PoolInv.goto (inv : PoolInv s free used) {pc : TicketPc}
    (keeps : ∀ t, pc.owns = some t → (s.pc p).owns = some t) (held : ∀ t, pc = .holding t → t ∈ used) :
    PoolInv (s.goto p pc) free used where
  freeChain := inv.freeChain
  usedChain := inv.usedChain
  nodup := inv.nodup
  all := inv.all
  held q t isHolder := by
    rcases TicketPool.pc_goto isHolder with ⟨-, new⟩ | ⟨-, old⟩
    · exact held t new
    · exact inv.held q t old
  numFree := inv.numFree
  numUsed := inv.numUsed
  usedInitialized := inv.usedInitialized
  freeInitialized := inv.freeInitialized
  locked q t isOwner := inv.locked q t (TicketPool.owns_goto keeps isOwner)
  unique q r t first second :=
    inv.unique q r t (TicketPool.owns_goto keeps first) (TicketPool.owns_goto keeps second)

omit [DecidableEq ι] in
theorem PoolInv.setPending (inv : PoolInv s free used) (t : Ticket) (n : UInt32) :
    PoolInv (s.setPending t n) free used where
  freeChain := inv.freeChain
  usedChain := inv.usedChain
  nodup := inv.nodup
  all := inv.all
  held := inv.held
  numFree := inv.numFree
  numUsed := inv.numUsed
  usedInitialized := inv.usedInitialized
  freeInitialized := inv.freeInitialized
  locked := inv.locked
  unique := inv.unique

/-- A thread takes a free lock `wait`. -/
theorem PoolInv.lock (inv : PoolInv s free used) (unlocked : s.waitLocked t = false) :
    PoolInv { s.goto p (.entering t) with waitLocked := Function.update s.waitLocked t true } free used := by
  have owners : ∀ {q u}, ((s.goto p (.entering t)).pc q).owns = some u →
      q = p ∧ u = t ∨ (s.pc q).owns = some u := by
    intro q u isOwner
    rcases @TicketPool.pc_goto _ _ s p (.entering t) _ q rfl with ⟨same, new⟩ | ⟨-, old⟩
    · rw [← new] at isOwner
      exact .inl ⟨same, (Option.some.inj isOwner).symm⟩
    · rw [← old] at isOwner
      exact .inr isOwner
  have unowned : ∀ q, (s.pc q).owns ≠ some t := fun q isOwner =>
    absurd ((inv.locked q t isOwner).symm.trans unlocked) (by decide)
  exact
    { freeChain := inv.freeChain
      usedChain := inv.usedChain
      nodup := inv.nodup
      all := inv.all
      held := fun q u isHolder => inv.held q u (TicketPool.holding_goto (by simp) isHolder)
      numFree := inv.numFree
      numUsed := inv.numUsed
      usedInitialized := inv.usedInitialized
      freeInitialized := inv.freeInitialized
      locked := fun q u isOwner => by
        show Function.update s.waitLocked t true u = true
        rw [Function.update_apply]
        split_ifs with isTaken
        · rfl
        · exact inv.locked q u ((owners isOwner).resolve_left fun both => isTaken both.2)
      unique := fun q r u first second => by
        rcases owners first with ⟨isOwn, isTaken⟩ | first
        · rcases owners second with ⟨isOwn', -⟩ | second
          · exact isOwn.trans isOwn'.symm
          · exact absurd (isTaken ▸ second) (unowned r)
        · rcases owners second with ⟨-, isTaken⟩ | second
          · exact absurd (isTaken ▸ first) (unowned q)
          · exact inv.unique q r u first second }

omit [DecidableEq ι] in
/-- A search for a ticket with a context ends at the ticket in front of the free list, or there is
none. -/
theorem PoolInv.found (inv : PoolInv s free used) {r : Option Ticket}
    (search : Search s.next s.initialized s.freeHead r) :
    (r = none ∧ ∀ t ∈ free, s.initialized t = false) ∨
      ∃ t rest, r = some t ∧ free = t :: rest ∧ s.initialized t = true := by
  have first := search.eq_find? inv.freeChain
  cases free with
  | nil => exact .inl ⟨first, by simp⟩
  | cons t rest =>
    rcases initialized : s.initialized t with _ | _
    · left
      have none_ : ∀ u ∈ t :: rest, s.initialized u = false := by
        refine List.forall_mem_cons.mpr ⟨initialized, fun u among => ?_⟩
        have front := (List.pairwise_cons.mp inv.freeInitialized).1 u among
        rw [initialized] at front
        exact Bool.eq_false_iff.mpr fun isInitialized => Bool.false_ne_true (front isInitialized)
      refine ⟨first.trans (List.find?_eq_none.mpr fun u among => ?_), none_⟩
      simp [none_ u among]
    · right
      exact ⟨t, rest, first.trans (List.find?_cons_of_pos initialized), rfl, initialized⟩

omit [DecidableEq ι] in
/-- The ticket in front of the free list gets a context when none of the free ones has. -/
theorem PoolInv.connect (inv : PoolInv s (t :: free) used)
    (fresh : ∀ u ∈ t :: free, s.initialized u = false) : PoolInv (s.connect t) (t :: free) used := by
  have notUsed : t ∉ used := fun among =>
    absurd ((fresh t List.mem_cons_self).symm.trans (inv.usedInitialized t among)) Bool.false_ne_true
  have others : ∀ u, u ≠ t → (s.connect t).initialized u = s.initialized u :=
    fun u other => Function.update_of_ne other _ _
  have own : (s.connect t).initialized t = true := Function.update_self _ _ _
  have notFree : t ∉ free := (List.nodup_cons.mp (show (t :: (free ++ used)).Nodup from inv.nodup)).1 ∘
    List.mem_append_left used
  exact
    { inv.toTicketLists with
      usedInitialized := fun u among => by
        rw [others u (fun same => notUsed (same ▸ among))]
        exact inv.usedInitialized u among
      freeInitialized := by
        refine List.pairwise_cons.mpr ⟨fun _ _ _ => own, ?_⟩
        refine List.Pairwise.imp_of_mem ?_ (List.pairwise_cons.mp inv.freeInitialized).2
        intro u v isFree isFree' keeps
        rw [others u (fun same => notFree (same ▸ isFree)), others v (fun same => notFree (same ▸ isFree'))]
        exact keeps
      locked := inv.locked
      unique := inv.unique }

/-- A step that is in order keeps the invariant. -/
theorem PoolInv.step (inv : PoolInv s free used) (step : TicketStep s p s') (orderly : Orderly s p) :
    ∃ free' used', PoolInv s' free' used' := by
  cases step with
  | grabInitialized here found =>
    rcases inv.found found with ⟨isNone, -⟩ | ⟨t, rest, isSome, rfl, initialized⟩
    · cases isNone
    · obtain rfl := Option.some.inj isSome
      exact ⟨_, _, inv.grab initialized⟩
  | @grabFresh t here found first =>
    rcases inv.found found with ⟨-, fresh⟩ | ⟨t, rest, isSome, -, -⟩
    · cases free with
      | nil => exact absurd (first.symm.trans inv.freeChain) (Option.some_ne_none t)
      | cons u rest =>
        obtain rfl := Option.some.inj (first.symm.trans inv.freeChain.1)
        exact ⟨_, _, (inv.connect fresh).grab (Function.update_self _ _ _)⟩
    · cases isSome
  | @grabUsed t u here empty first least =>
    exact ⟨_, _, (inv.setPending t _).goto (by simp [TicketPc.owns]) (by simp)⟩
  | locked here unlocked => exact ⟨_, _, inv.lock unlocked⟩
  | @returned t here =>
    obtain ⟨used', chain, among⟩ := orderly.2 t here
    obtain rfl := chain.unique inv.usedChain
    refine ⟨_, _, (inv.setPending t _).goto (fun u isOwner => ?_) fun u isHolder => ?_⟩
    · exact (congrArg TicketPc.owns here).trans isOwner
    · exact TicketPc.holding.inj isHolder ▸ among
  | @released t here =>
    have first := orderly.1 t here
    cases used with
    | nil => exact absurd (first.symm.trans inv.usedChain) (Option.some_ne_none t)
    | cons u rest =>
      obtain rfl := Option.some.inj (first.symm.trans inv.usedChain.1)
      exact ⟨_, _, inv.release here⟩

omit [DecidableEq ι] in
/-- What a thread does is in order as long as it neither releases nor gets a ticket. -/
theorem orderly_of_pc {pc : TicketPc} (here : s.pc p = pc) (notHolding : ∀ t, pc ≠ .holding t)
    (notEntering : ∀ t, pc ≠ .entering t) : Orderly s p :=
  ⟨fun t isHolder => absurd (here.symm.trans isHolder) (notHolding t),
    fun t isEntering => absurd (here.symm.trans isEntering) (notEntering t)⟩

/-- A step that is not in order loses tickets, or gives a free ticket to a thread. -/
theorem PoolInv.orderly_of_right (inv : PoolInv s free used) (step : TicketStep s p s')
    (right : TicketsRight s') : Orderly s p := by
  obtain ⟨⟨free', used', lists⟩, -⟩ := right
  cases step with
  | grabInitialized here found => exact orderly_of_pc here (by simp) (by simp)
  | grabFresh here found first => exact orderly_of_pc here (by simp) (by simp)
  | grabUsed here empty first least => exact orderly_of_pc here (by simp) (by simp)
  | locked here unlocked => exact orderly_of_pc here (by simp) (by simp)
  | @returned t here =>
    refine ⟨fun u isHolder => absurd (here.symm.trans isHolder) (by simp), fun u isEntering => ?_⟩
    obtain rfl := TicketPc.entering.inj (here.symm.trans isEntering)
    exact ⟨used', lists.usedChain, lists.held p t (Function.update_self _ _ _)⟩
  | @released t here =>
    refine ⟨fun u isHolder => ?_, fun u isEntering => absurd (here.symm.trans isEntering) (by simp)⟩
    obtain rfl := TicketPc.holding.inj (here.symm.trans isHolder)
    obtain ⟨front, rest, rfl⟩ := List.append_of_mem (inv.held p t here)
    have nodup : (front ++ t :: rest).Nodup := (List.nodup_append.mp inv.nodup).2.1
    have notRest : t ∉ rest := (List.nodup_cons.mp (List.nodup_append.mp nodup).2.1).1
    have notFree : t ∉ free := fun isFree => (List.nodup_append.mp inv.nodup).2.2 t isFree t (by simp) rfl
    -- the used list goes on behind the ticket, without what was in front of it
    obtain rfl : rest = used' := (inv.usedChain.behind.update notRest _).unique lists.usedChain
    obtain rfl : t :: free = free' := (inv.freeChain.push notFree).unique lists.freeChain
    cases front with
    | nil => exact inv.usedChain.1
    | cons u front =>
      have somewhere : u ∈ t :: free ++ rest := lists.all u
      have nodup := inv.nodup
      simp only [List.nodup_append, List.cons_append, List.nodup_cons, List.mem_append,
        List.mem_cons] at nodup somewhere
      grind

/-! ## After the initialization -/

omit [DecidableEq ι] in
/-- The tickets that are allocated are put in front of the free list. -/
theorem chain_allocate (l free : List Ticket) (s : TicketPool ι) (chain : Chain s.next s.freeHead free)
    (nodup : (l.reverse ++ free).Nodup) : Chain (l.foldl TicketPool.allocate s).next
      (l.foldl TicketPool.allocate s).freeHead (l.reverse ++ free) := by
  induction l generalizing s free with
  | nil => exact chain
  | cons t l ih =>
    rw [List.reverse_cons, List.append_assoc, List.singleton_append] at nodup ⊢
    have notFree : t ∉ free := (List.nodup_cons.mp (List.nodup_append.mp nodup).2.1).1
    exact ih (t :: free) (s.allocate t) (chain.push notFree) nodup

omit [DecidableEq ι] in
theorem tspiInit_inv : PoolInv (TicketPool.tspiInit : TicketPool ι)
    (List.finRange maxNumConnections).reverse [] := by
  have idle : ∀ p, (TicketPool.tspiInit : TicketPool ι).pc p = .idle := fun _ => rfl
  have unowned : ∀ p t, ((TicketPool.tspiInit : TicketPool ι).pc p).owns ≠ some t := by
    intro p t isOwner
    rw [idle] at isOwner
    cases isOwner
  have fresh : ∀ t, (TicketPool.tspiInit : TicketPool ι).initialized t = false := by
    intro t
    fin_cases t <;> rfl
  have chain := chain_allocate (List.finRange maxNumConnections) [] (TicketPool.empty : TicketPool ι) rfl
    (by decide)
  rw [List.append_nil] at chain
  exact
    { freeChain := chain
      usedChain := rfl
      nodup := by decide
      all := by decide
      held := fun p t isHolder => absurd ((idle p).symm.trans isHolder) (by simp)
      numFree := rfl
      numUsed := rfl
      usedInitialized := by simp
      freeInitialized := List.pairwise_of_forall fun t u isInitialized =>
        absurd ((fresh u).symm.trans isInitialized) Bool.false_ne_true
      locked := fun p t isOwner => absurd isOwner (unowned p t)
      unique := fun p q t isOwner _ => absurd isOwner (unowned p t) }

/-- **The tickets.**  In every run of grabs and releases that are in order, the tickets are where they
should be; and the first step that is not in order loses tickets, or gives a free ticket to a thread. -/
theorem ticketsRight_of_orderly (run : Relation.ReflTransGen OrderlyStep TicketPool.tspiInit s) :
    TicketsRight s ∧ ∀ p s', TicketStep s p s' → (TicketsRight s' ↔ Orderly s p) := by
  have kept : ∃ free used, PoolInv s free used := by
    induction run with
    | refl => exact ⟨_, _, tspiInit_inv⟩
    | tail _ last ih =>
      obtain ⟨free, used, inv⟩ := ih
      obtain ⟨p, step, orderly⟩ := last
      exact inv.step step orderly
  obtain ⟨free, used, inv⟩ := kept
  refine ⟨inv.right, fun p s' step => ⟨inv.orderly_of_right step, fun orderly => ?_⟩⟩
  obtain ⟨free', used', inv'⟩ := inv.step step orderly
  exact inv'.right

/-- The state after thread `p` has grabbed ticket `t`, the first to get a context. -/
def TicketPool.grabbed (s : TicketPool ι) (p : ι) (t : Ticket) : TicketPool ι :=
  let waiting := ((s.connect t).grab t).goto p (.waiting t)
  let entering : TicketPool ι :=
    { waiting.goto p (.entering t) with waitLocked := Function.update waiting.waitLocked t true }
  (entering.setPending t (entering.numPending t - 1)).goto p (.holding t)

theorem grabbed_run (here : s.pc p = .idle) (free used : List Ticket)
    (freeChain : Chain s.next s.freeHead (t :: free)) (fresh : (t :: free).find? s.initialized = none)
    (usedChain : Chain s.next s.usedHead used) (notUsed : t ∉ used) (unlocked : s.waitLocked t = false) :
    Relation.ReflTransGen OrderlyStep s (s.grabbed p t) := by
  have search : Search s.next s.initialized s.freeHead none := fresh ▸ freeChain.search s.initialized
  refine ((Relation.ReflTransGen.single ⟨p, .grabFresh here search freeChain.1,
    orderly_of_pc here (by simp) (by simp)⟩).tail ⟨p, .locked (Function.update_self _ _ _) unlocked,
    orderly_of_pc (Function.update_self _ _ _) (by simp) (by simp)⟩).tail
    ⟨p, .returned (Function.update_self _ _ _), fun u isHolder => ?_, fun u isEntering => ?_⟩
  · exact absurd ((Function.update_self _ _ _).symm.trans isHolder) (by simp)
  · obtain rfl := TicketPc.entering.inj ((Function.update_self _ _ _).symm.trans isEntering)
    exact ⟨t :: used, usedChain.push notUsed, List.mem_cons_self⟩

/-- Two threads that have grabbed a ticket each. -/
def twoHolders : TicketPool Bool := (TicketPool.tspiInit.grabbed false 9).grabbed true 8

theorem twoHolders_run : Relation.ReflTransGen OrderlyStep TicketPool.tspiInit twoHolders := by
  have first : Relation.ReflTransGen OrderlyStep TicketPool.tspiInit
      (TicketPool.tspiInit.grabbed false 9) := by
    refine grabbed_run rfl [8, 7, 6, 5, 4, 3, 2, 1, 0] [] ?_ rfl rfl (by decide) rfl
    exact ⟨rfl, rfl, rfl, rfl, rfl, rfl, rfl, rfl, rfl, rfl, rfl⟩
  have second : Relation.ReflTransGen OrderlyStep (TicketPool.tspiInit.grabbed false 9) twoHolders := by
    refine grabbed_run rfl [7, 6, 5, 4, 3, 2, 1, 0] [9] ?_ rfl ⟨rfl, rfl⟩ (by decide) rfl
    exact ⟨rfl, rfl, rfl, rfl, rfl, rfl, rfl, rfl, rfl, rfl⟩
  exact first.trans second

/-- The later of two tickets is released first. -/
theorem ticketsRight_of_orderly_twoHolders : TicketsRight ((twoHolders.release 8).goto true .idle) := by
  refine (ticketsRight_of_orderly (twoHolders_run.tail ⟨true, .released rfl, fun t isHolder => ?_,
    fun t isEntering => ?_⟩)).1
  · obtain rfl := TicketPc.holding.inj (show TicketPc.holding 8 = .holding t from isHolder)
    rfl
  · exact absurd (show TicketPc.holding 8 = .entering t from isEntering) (by simp)

/-- The earlier of two tickets is released first: the later one, which is still held, is in no list. -/
theorem ticketsRight_fails : ∃ s : TicketPool Bool,
    Relation.ReflTransGen (fun a b => ∃ p, TicketStep a p b) TicketPool.tspiInit s ∧
      s.pc true = .holding 8 ∧ s.freeHead = some 9 ∧ s.usedHead = none ∧ ¬ TicketsRight s := by
  have step : TicketStep twoHolders false ((twoHolders.release 9).goto false .idle) := .released rfl
  have run : Relation.ReflTransGen (fun a b => ∃ p, TicketStep a p b) TicketPool.tspiInit twoHolders := by
    refine Relation.ReflTransGen.mono ?_ _ _ twoHolders_run
    rintro a b ⟨p, step, -⟩
    exact ⟨p, step⟩
  refine ⟨_, run.tail ⟨false, step⟩, rfl, rfl, rfl, ?_⟩
  rintro ⟨⟨free, used, lists⟩, -⟩
  have nothing : used = [] := lists.usedChain.unique (show Chain _ none [] from rfl)
  have held : 8 ∈ used := lists.held true 8 rfl
  exact List.not_mem_nil (nothing ▸ held)

end Ecryptfs
