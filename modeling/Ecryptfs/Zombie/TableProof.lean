import Ecryptfs.Zombie.Table

/-!
# What the table of zombie sessions stands for

The segment represents a list of pairs (`Represents`): their encoding, followed by zeros to the end.
Adding appends to the list, removing erases the first pair of a session, and finding looks it up; the
list is read back from the segment by `table`.  Inside the segment all is well in every state that
processes can reach (`zombieTable_refines`); the accesses are not all inside it
(`accesses_inside_iff`).
-/

namespace Ecryptfs

open Memory

/-- A session and a process. -/
abbrev SidPid := Pid × Pid

/-- The number of pairs that fit. -/
def maxPairs : ℕ := 512

def encodePair (p : SidPid) : List UInt8 := Words.store .big p.1 ++ Words.store .big p.2

/-- The pairs in network order. -/
def encode (t : List SidPid) : List UInt8 := t.flatMap encodePair

/-- What remains of the segment behind `n` pairs. -/
def zeros (n : ℕ) : List UInt8 := .replicate (shmSize - pairSize * n) 0

theorem length_encode (t : List SidPid) : (encode t).length = pairSize * t.length := by
  induction t with
  | nil => rfl
  | cons p t ih =>
    rw [encode, List.flatMap_cons, List.length_append, ← encode, ih, List.length_cons, encodePair,
      List.length_append, Words.length_store, Words.length_store, pairSize, pidSize]
    omega

theorem encode_append (a b : List SidPid) : encode (a ++ b) = encode a ++ encode b :=
  List.flatMap_append

theorem encode_cons (p : SidPid) (t : List SidPid) : encode (p :: t) = encodePair p ++ encode t :=
  List.flatMap_cons

theorem length_encodePair (p : SidPid) : (encodePair p).length = pairSize := by
  rw [encodePair, List.length_append, Words.length_store, Words.length_store]
  rfl

/-- **The segment stands for the table `t`.** -/
structure Represents (m : Bytes) (t : List SidPid) : Prop where
  few : t.length ≤ maxPairs
  live : ∀ p ∈ t, p.2 ≠ 0
  bytes : ∃ beyond, m = holding (encode t ++ zeros t.length) beyond

variable {m : Bytes} {t : List SidPid}

/-! ## Reading -/

/-- The pair at an offset. -/
def PairAt (m : Bytes) (i : ℕ) (p : SidPid) : Prop :=
  readPid m i = p.1 ∧ readPid m (i + pidSize) = p.2

theorem readPid_holding (a rest : List UInt8) (x : Pid) (beyond : Bytes) :
    readPid (holding (a ++ (Words.store .big x ++ rest)) beyond) a.length = x := by
  have read := slice_holding_append a (Words.store .big x) (holding rest beyond)
  rw [Words.length_store] at read
  rw [readPid, pidSize, ← List.append_assoc, holding_append, read]
  exact (congrArg _ (List.append_nil _).symm).trans (Words.load_store .big x [])

theorem pairAt_holding (a rest : List UInt8) (p : SidPid) (beyond : Bytes) :
    PairAt (holding (a ++ (encodePair p ++ rest)) beyond) a.length p := by
  rw [encodePair, List.append_assoc]
  refine ⟨readPid_holding a _ p.1 beyond, ?_⟩
  have second := readPid_holding (a ++ Words.store .big p.1) rest p.2 beyond
  rwa [List.append_assoc, List.length_append, Words.length_store] at second

/-- The pairs of the table are in the segment. -/
theorem Represents.pairAt (represents : Represents m t) {front back : List SidPid} {p : SidPid}
    (here : t = front ++ p :: back) : PairAt m (pairSize * front.length) p := by
  obtain ⟨beyond, rfl⟩ := represents.bytes
  rw [← length_encode]
  have known : encode t ++ zeros t.length =
      encode front ++ (encodePair p ++ (encode back ++ zeros t.length)) := by
    conv_lhs => rw [here, encode_append, encode_cons]
    rw [← here, List.append_assoc, List.append_assoc]
  rw [known]
  exact pairAt_holding (encode front) (encode back ++ zeros t.length) p beyond

/-- The terminator follows a table that does not fill the segment. -/
theorem Represents.terminator (represents : Represents m t) (room : t.length < maxPairs) :
    PairAt m (pairSize * t.length) (0, 0) := by
  obtain ⟨beyond, rfl⟩ := represents.bytes
  rw [← length_encode]
  have first : zeros t.length = encodePair (0, 0) ++ zeros (t.length + 1) := by
    have zero : encodePair (0, 0) = .replicate pairSize 0 := by decide
    rw [zero, zeros, zeros, List.replicate_append_replicate]
    congr 1
    simp only [maxPairs, pairSize, pidSize, shmSize] at room ⊢
    omega
  rw [first]
  exact pairAt_holding (encode t) _ (0, 0) beyond

/-- The pairs up to the terminator, from an offset on. -/
def tableFrom (m : Bytes) : ℕ → ℕ → List SidPid
  | 0, _ => []
  | slots + 1, i =>
    if readPid m i = 0 ∧ readPid m (i + pidSize) = 0 then []
    else (readPid m i, readPid m (i + pidSize)) :: tableFrom m slots (i + pairSize)

/-- The table in the segment. -/
def table (m : Bytes) : List SidPid := tableFrom m maxPairs 0

theorem Represents.tableFrom (represents : Represents m t) {front back : List SidPid}
    (here : t = front ++ back) {slots : ℕ} (all : front.length + slots = maxPairs) :
    tableFrom m slots (pairSize * front.length) = back := by
  induction slots generalizing front back with
  | zero =>
    have few := represents.few
    rw [here, List.length_append] at few
    obtain rfl : back = [] := List.eq_nil_of_length_eq_zero (by omega)
    rfl
  | succ slots ih =>
    cases back with
    | nil =>
      rw [List.append_nil] at here
      subst here
      obtain ⟨sid, pid⟩ := represents.terminator (by omega)
      rw [Ecryptfs.tableFrom, if_pos ⟨sid, pid⟩]
    | cons p back =>
      obtain ⟨sid, pid⟩ := represents.pairAt here
      have alive : p.2 ≠ 0 := represents.live p (by rw [here]; simp)
      rw [Ecryptfs.tableFrom, sid, pid, if_neg fun zero => alive zero.2]
      have rest := @ih (front ++ [p]) back (by rw [here]; simp) (by simp; omega)
      rw [List.length_append, List.length_singleton, Nat.mul_succ] at rest
      rw [rest]

theorem Represents.table (represents : Represents m t) : table m = t :=
  represents.tableFrom (List.nil_append t).symm (Nat.zero_add _)

/-! ## Scanning -/

/-- The scan goes on over a pair of another session. -/
theorem scan_skip {wanted : Option Pid} {i : ℕ} {p : SidPid} (pairAt : PairAt m i p)
    (alive : p.2 ≠ 0) (other : wanted ≠ some p.1) (room : i + pairSize + pairSize ≤ shmSize) :
    (scan wanted m i).1 = (scan wanted m (i + pairSize)).1 := by
  conv_lhs => rw [scan]
  simp only [pairAt.1, pairAt.2]
  rw [if_neg fun zero => alive zero.2, if_neg other, dif_neg (not_lt.mpr room)]

theorem scan_skips {wanted : Option Pid} (represents : Represents m t) {front back : List SidPid}
    (here : t = front ++ back) (others : ∀ p ∈ front, wanted ≠ some p.1)
    (room : pairSize * front.length + pairSize ≤ shmSize) :
    (scan wanted m 0).1 = (scan wanted m (pairSize * front.length)).1 := by
  induction front using List.reverseRecOn generalizing back with
  | nil => rfl
  | append_singleton front p ih =>
    rw [List.length_append, List.length_singleton, Nat.mul_succ] at room ⊢
    have here' : t = front ++ p :: back := by rw [here, List.append_assoc]; rfl
    rw [ih here' (fun u among => others u (List.mem_append_left _ among)) (by omega)]
    exact scan_skip (represents.pairAt here') (represents.live p (by rw [here']; simp))
      (others p (by simp)) room

/-- The first pair of the session is found. -/
theorem scan_found {front back : List SidPid} {p : SidPid} (represents : Represents m t)
    (here : t = front ++ p :: back) (others : ∀ u ∈ front, u.1 ≠ p.1) :
    (scan (some p.1) m 0).1 = .found p.2 (pairSize * (front.length + 1)) := by
  have few := represents.few
  rw [here, List.length_append, List.length_cons] at few
  have room : pairSize * front.length + pairSize ≤ shmSize := by
    simp only [maxPairs, pairSize, pidSize, shmSize] at few ⊢
    omega
  rw [scan_skips represents here (fun u among same => others u among (Option.some.inj same).symm) room,
    scan]
  obtain ⟨sid, pid⟩ := represents.pairAt here
  have alive : p.2 ≠ 0 := represents.live p (by rw [here]; simp)
  simp only [sid, pid]
  rw [if_neg fun zero => alive zero.2, if_pos trivial, Nat.mul_succ]

/-- Without a pair of the session the scan comes to the terminator. -/
theorem scan_free {wanted : Option Pid} (represents : Represents m t)
    (others : ∀ p ∈ t, wanted ≠ some p.1) (room : t.length < maxPairs) :
    (scan wanted m 0).1 = .free (pairSize * (t.length + 1)) := by
  have room' : pairSize * t.length + pairSize ≤ shmSize := by
    simp only [maxPairs, pairSize, pidSize, shmSize] at room ⊢
    omega
  rw [scan_skips represents (List.append_nil t).symm others room', scan]
  obtain ⟨sid, pid⟩ := represents.terminator room
  simp only [sid, pid]
  rw [if_pos ⟨trivial, trivial⟩, Nat.mul_succ]

/-- Without a pair of the session the scan of a full table comes to the end of the segment. -/
theorem scan_full {wanted : Option Pid} (represents : Represents m t)
    (others : ∀ p ∈ t, wanted ≠ some p.1) (full : t.length = maxPairs) :
    (scan wanted m 0).1 = .full shmSize := by
  rcases List.eq_nil_or_concat t with none_ | ⟨front, last, here⟩
  · rw [none_] at full
    cases full
  · rw [List.concat_eq_append] at here
    rw [here, List.length_append, List.length_singleton] at full
    have offset : pairSize * front.length = 4088 := by
      simp only [maxPairs, pairSize, pidSize] at full ⊢
      omega
    have alive : last.2 ≠ 0 := represents.live last (by rw [here]; simp)
    have other : wanted ≠ some last.1 := others last (by rw [here]; simp)
    rw [scan_skips represents here (fun p among => others p (by rw [here]; simp [among]))
      (by rw [offset]; decide), scan]
    obtain ⟨sid, pid⟩ := represents.pairAt here
    simp only [sid, pid]
    rw [if_neg fun zero => alive zero.2, if_neg other, offset, dif_pos (by decide)]
    rfl

/-! ## Accesses -/

/-- The access stays inside the segment. -/
def Access.Inside (a : Access) : Prop := a.offset + a.length ≤ shmSize

/-- The scan stays inside the segment, whatever it reads. -/
theorem scan_inside (wanted : Option Pid) (m : Bytes) {i : ℕ} (room : i + pairSize ≤ shmSize) :
    ∀ a ∈ (scan wanted m i).2, a.Inside := by
  have here : ∀ a ∈ [(⟨i, pidSize⟩ : Access), ⟨i + pidSize, pidSize⟩], a.Inside := by
    simp only [List.forall_mem_cons, Access.Inside]
    simp only [pairSize, pidSize, shmSize] at room ⊢
    exact ⟨by omega, by omega, fun a none_ => by cases none_⟩
  induction h : shmSize - i using Nat.strong_induction_on generalizing i with
  | _ n ih =>
    rw [scan]
    simp only
    split_ifs with zero match_ full
    · exact here
    · exact here
    · exact here
    · have next : i + pairSize + pairSize ≤ shmSize := not_lt.mp full
      intro a among
      rcases List.mem_append.mp among with first | rest
      · exact here a first
      · refine ih (shmSize - (i + pairSize)) ?_ next ?_ rfl a rest
        · simp only [pairSize, pidSize, shmSize] at next h ⊢
          omega
        · simp only [List.forall_mem_cons, Access.Inside]
          simp only [pairSize, pidSize, shmSize] at next ⊢
          exact ⟨by omega, by omega, fun a none_ => by cases none_⟩

/-! ## Adding -/

/-- Zeros written over zeros at the end of the segment. -/
theorem write_zeros (a : List UInt8) (n z : ℕ) (beyond : Bytes) : ∃ beyond',
    write (holding (a ++ .replicate z 0) beyond) a.length (.replicate n 0) =
      holding (a ++ .replicate z 0) beyond' := by
  rcases le_total n z with inside | outside
  · obtain ⟨rest, rfl⟩ := Nat.exists_eq_add_of_le inside
    refine ⟨beyond, ?_⟩
    rw [← List.replicate_append_replicate]
    exact write_inside a (.replicate n 0) (.replicate n 0) (.replicate rest 0) rfl beyond
  · obtain ⟨beyond', written⟩ := write_over a (.replicate z 0) (.replicate n 0) (by simpa) beyond
    refine ⟨beyond', ?_⟩
    rwa [List.length_replicate, List.take_replicate, min_eq_left outside] at written

variable {caller : Caller} {calls : ShmCalls}

/-- The pair that a process adds. -/
def Caller.pair (caller : Caller) : SidPid := (caller.sid, caller.pid)

/-- The pair is written over the terminator. -/
theorem write_pair (room : t.length < maxPairs) (beyond : Bytes) :
    write (write (holding (encode t ++ zeros t.length) beyond) (pairSize * t.length)
        (Words.store .big caller.sid)) (pairSize * t.length + pidSize) (Words.store .big caller.pid) =
      holding (encode (t ++ [caller.pair]) ++ zeros (t.length + 1)) beyond := by
  have split : zeros t.length = .replicate pidSize 0 ++ (.replicate pidSize 0 ++ zeros (t.length + 1)) := by
    rw [zeros, zeros, List.replicate_append_replicate, List.replicate_append_replicate]
    congr 1
    simp only [maxPairs, pairSize, pidSize, shmSize] at room ⊢
    omega
  have sid := write_inside (encode t) (.replicate pidSize 0) (Words.store .big caller.sid)
    (.replicate pidSize 0 ++ zeros (t.length + 1)) (by simp [pidSize]) beyond
  have pid := write_inside (encode t ++ Words.store .big caller.sid) (.replicate pidSize 0)
    (Words.store .big caller.pid) (zeros (t.length + 1)) (by simp [pidSize]) beyond
  rw [length_encode] at sid
  rw [List.length_append, length_encode, Words.length_store, List.append_assoc] at pid
  rw [split, sid]
  refine pid.trans ?_
  rw [encode_append, Caller.pair, encode_cons, encodePair]
  simp only [encode, List.flatMap_nil, List.append_nil, List.append_assoc]

/-- What `add_sid_pid_pair_to_shm` does while there is room. -/
theorem add_spec (represents : Represents m t) (alive : caller.pid ≠ 0) (attached : calls.attached = true)
    (room : t.length < maxPairs) :
    (addSidPidPairToShm calls caller m).rc = detachCode calls ∧
      Represents (addSidPidPairToShm calls caller m).mem (t ++ [caller.pair]) ∧
      (addSidPidPairToShm calls caller m).accesses = (scan none m 0).2 ++
        [⟨pairSize * t.length, pidSize⟩, ⟨pairSize * t.length + pidSize, pidSize⟩] ++
        if t.length + 1 < maxPairs then
          [⟨pairSize * (t.length + 1), pairSize * (t.length + 1) + pairSize⟩] else [] := by
  have scanned : scan none m 0 = (.free (pairSize * (t.length + 1)), (scan none m 0).2) :=
    Prod.ext (scan_free represents (by simp) room) rfl
  have back : pairSize * (t.length + 1) - pairSize = pairSize * t.length := by
    rw [Nat.mul_succ, Nat.add_sub_cancel]
  have next : pairSize * t.length + pairSize = pairSize * (t.length + 1) := (Nat.mul_succ _ _).symm
  have bound : pairSize * (t.length + 1) + pairSize ≤ shmSize ↔ t.length + 1 < maxPairs := by
    simp only [maxPairs, pairSize, pidSize, shmSize]
    omega
  have few : (t ++ [caller.pair]).length ≤ maxPairs := by
    rw [List.length_append, List.length_singleton]
    exact room
  have live : ∀ p ∈ t ++ [caller.pair], p.2 ≠ 0 := by
    intro p among
    rcases List.mem_append.mp among with old | new
    · exact represents.live p old
    · rw [List.mem_singleton.mp new]
      exact alive
  have length : (t ++ [caller.pair]).length = t.length + 1 := by simp
  obtain ⟨beyond, isHolding⟩ := represents.bytes
  have written := @write_pair t caller room beyond
  rw [← isHolding] at written
  unfold addSidPidPairToShm
  rw [attached, if_neg (by decide), scanned]
  simp only [back, next, bound, written]
  split_ifs with more
  · refine ⟨rfl, ⟨few, live, ?_⟩, rfl⟩
    obtain ⟨beyond', zeroed⟩ := write_zeros (encode (t ++ [caller.pair]))
      (pairSize * (t.length + 1) + pairSize) (shmSize - pairSize * (t.length + 1)) beyond
    rw [length_encode, length] at zeroed
    rw [length]
    exact ⟨beyond', zeroed⟩
  · refine ⟨rfl, ⟨few, live, beyond, ?_⟩, (List.append_nil _).symm⟩
    rw [length]

/-- A full table is left alone. -/
theorem add_full (represents : Represents m t) (attached : calls.attached = true)
    (full : t.length = maxPairs) :
    addSidPidPairToShm calls caller m = ⟨-enomem, m, (scan none m 0).2⟩ := by
  have scanned : scan none m 0 = (.full shmSize, (scan none m 0).2) :=
    Prod.ext (scan_full represents (by simp) full) rfl
  unfold addSidPidPairToShm
  rw [attached, if_neg (by decide), scanned]

/-! ## Finding and removing -/

/-- The pairs of a session. -/
def ofSession (sid : Pid) (p : SidPid) : Bool := p.1 = sid

/-- How the scan for a session ends, by the table. -/
theorem scan_session (represents : Represents m t) (sid : Pid) :
    (∃ front p back, t = front ++ p :: back ∧ p.1 = sid ∧ (∀ u ∈ front, u.1 ≠ sid) ∧
      (scan (some sid) m 0).1 = .found p.2 (pairSize * (front.length + 1))) ∨
    ((∀ p ∈ t, p.1 ≠ sid) ∧ ∀ pid i, (scan (some sid) m 0).1 ≠ .found pid i) := by
  cases found : t.find? (ofSession sid) with
  | none =>
    have others : ∀ p ∈ t, p.1 ≠ sid := by
      intro p among same
      exact List.find?_eq_none.mp found p among (decide_eq_true same)
    have others' : ∀ p ∈ t, some sid ≠ some p.1 :=
      fun p among same => others p among (Option.some.inj same).symm
    refine .inr ⟨others, fun pid i same => ?_⟩
    rcases lt_or_eq_of_le represents.few with room | full
    · rw [scan_free represents others' room] at same
      cases same
    · rw [scan_full represents others' full] at same
      cases same
  | some p =>
    obtain ⟨isSid, front, back, here, others⟩ := List.find?_eq_some_iff_append.mp found
    have isSid' : p.1 = sid := of_decide_eq_true isSid
    have others' : ∀ u ∈ front, u.1 ≠ sid := by
      intro u among same
      have := others u among
      simp [ofSession, same] at this
    refine .inl ⟨front, p, back, here, isSid', others', ?_⟩
    rw [← isSid'] at others' ⊢
    exact scan_found represents here others'

/-- What `find_pid_for_this_sid` finds. -/
theorem find_spec (represents : Represents m t) (attached : calls.attached = true)
    (detached : calls.detached = true) :
    (findPidForThisSid calls caller m).2.rc = 0 ∧ (findPidForThisSid calls caller m).2.mem = m ∧
      (findPidForThisSid calls caller m).1 =
        ((t.find? (ofSession caller.sid)).map Prod.snd).getD 0 := by
  have code : detachCode calls = 0 := by rw [detachCode, detached, if_pos rfl]
  unfold findPidForThisSid
  rw [attached, if_neg (by decide), detached, code]
  rcases scan_session represents caller.sid with ⟨front, p, back, here, isSid, others, found⟩ | ⟨others, unfound⟩
  · have scanned : scan (some caller.sid) m 0 =
        (.found p.2 (pairSize * (front.length + 1)), (scan (some caller.sid) m 0).2) :=
      Prod.ext found rfl
    have first : t.find? (ofSession caller.sid) = some p := by
      rw [List.find?_eq_some_iff_append]
      exact ⟨decide_eq_true isSid, front, back, here, fun u among => by simp [ofSession, others u among]⟩
    rw [scanned, first]
    exact ⟨rfl, rfl, rfl⟩
  · have none_ : t.find? (ofSession caller.sid) = none := by
      rw [List.find?_eq_none]
      intro p among isSid
      exact others p among (of_decide_eq_true isSid)
    rw [none_]
    split
    · next pid i reads scanned => exact absurd (congrArg Prod.fst scanned) (unfound pid i)
    · exact ⟨rfl, rfl, rfl⟩

/-- The segment of a table around one of its pairs. -/
theorem encode_around (front back : List SidPid) (p : SidPid) :
    encode (front ++ p :: back) ++ zeros (front ++ p :: back).length =
      encode front ++ (encodePair p ++ (encode back ++ zeros (front.length + (back.length + 1)))) := by
  rw [encode_append, encode_cons, List.append_assoc, List.append_assoc, List.length_append,
    List.length_cons]

/-- What follows a pair is moved down over it, and the end of the segment cleared. -/
theorem move_down (front back : List SidPid) (p : SidPid) (beyond : Bytes)
    (few : front.length + (back.length + 1) ≤ maxPairs) {m : Bytes}
    (here : m = holding (encode (front ++ p :: back) ++ zeros (front ++ p :: back).length) beyond) :
    write (write m (pairSize * front.length)
        (slice m (pairSize * (front.length + 1)) (shmSize - pairSize * (front.length + 1))))
      (pairSize * front.length + (shmSize - pairSize * (front.length + 1))) (.replicate pairSize 0) =
      holding (encode (front ++ back) ++ zeros (front ++ back).length) beyond := by
  have rest : (encode back ++ zeros (front.length + (back.length + 1))).length =
      shmSize - pairSize * (front.length + 1) := by
    rw [List.length_append, length_encode, zeros, List.length_replicate]
    simp only [maxPairs, pairSize, pidSize, shmSize] at few ⊢
    omega
  have moved := write_move_down (encode front) (encodePair p)
    (encode back ++ zeros (front.length + (back.length + 1))) (.replicate pairSize 0)
    (by rw [List.length_replicate, length_encodePair]) beyond
  rw [← encode_around, ← here, rest, length_encode, length_encodePair, ← Nat.mul_succ] at moved
  rw [moved, encode_append, List.append_assoc, List.append_assoc, zeros,
    List.replicate_append_replicate, List.length_append, zeros]
  congr 4
  simp only [maxPairs, pairSize, pidSize, shmSize] at few ⊢
  omega

/-- What `remove_pid_for_this_sid` does to the table. -/
theorem remove_spec (represents : Represents m t) (attached : calls.attached = true)
    (allocated : calls.allocated = true) :
    (removePidForThisSid calls caller m).rc = detachCode calls ∧
      Represents (removePidForThisSid calls caller m).mem (t.eraseP (ofSession caller.sid)) ∧
      ∀ a ∈ (removePidForThisSid calls caller m).accesses, a.Inside := by
  have inside := scan_inside (some caller.sid) m (i := 0) (by decide)
  unfold removePidForThisSid
  rw [attached, allocated, if_neg (by decide)]
  rcases scan_session represents caller.sid with ⟨front, p, back, here, isSid, others, found⟩ | ⟨others, unfound⟩
  · have scanned : scan (some caller.sid) m 0 =
        (.found p.2 (pairSize * (front.length + 1)), (scan (some caller.sid) m 0).2) :=
      Prod.ext found rfl
    have alive : p.2 ≠ 0 := represents.live p (by rw [here]; simp)
    have erased : t.eraseP (ofSession caller.sid) = front ++ back := by
      rw [here, List.eraseP_append_right _ fun u among => by simp [ofSession, others u among],
        List.eraseP_cons_of_pos (by simp [ofSession, isSid])]
    have few := represents.few
    rw [here, List.length_append, List.length_cons] at few
    obtain ⟨beyond, isHolding⟩ := represents.bytes
    rw [here] at isHolding
    have moved := move_down front back p beyond few isHolding
    have result : Represents (holding (encode (front ++ back) ++ zeros (front ++ back).length) beyond)
        (front ++ back) := by
      refine ⟨by rw [List.length_append]; omega, fun u among => represents.live u ?_, beyond, rfl⟩
      rw [here]
      rcases List.mem_append.mp among with first | last
      · exact List.mem_append_left _ first
      · exact List.mem_append_right _ (List.mem_cons_of_mem _ last)
    have offset : pairSize * (front.length + 1) - pairSize = pairSize * front.length := by
      rw [Nat.mul_succ, Nat.add_sub_cancel]
    have end_ : pairSize * (front.length + 1) ≤ shmSize := by
      simp only [maxPairs, pairSize, pidSize, shmSize] at few ⊢
      omega
    have start : pairSize * front.length + pairSize = pairSize * (front.length + 1) :=
      (Nat.mul_succ _ _).symm
    rw [erased, scanned]
    simp only [offset, if_pos alive]
    split_ifs with more none_
    · exact absurd none_ (by decide)
    · rw [moved]
      refine ⟨rfl, result, fun a among => ?_⟩
      rcases List.mem_append.mp among with read | wrote
      · exact inside a read
      · simp only [List.mem_cons, List.not_mem_nil, or_false] at wrote
        rcases wrote with rfl | rfl | rfl
        · exact (Nat.add_sub_cancel' end_).le
        · change pairSize * front.length + (shmSize - pairSize * (front.length + 1)) ≤ shmSize
          omega
        · change pairSize * front.length + (shmSize - pairSize * (front.length + 1)) + pairSize ≤ shmSize
          omega
    · have last : shmSize - pairSize * (front.length + 1) = 0 := not_not.mp more
      rw [last] at moved
      have nothing : slice m (pairSize * (front.length + 1)) 0 = [] := rfl
      rw [nothing, write_nil, Nat.add_zero] at moved
      rw [moved]
      refine ⟨rfl, result, fun a among => ?_⟩
      rcases List.mem_append.mp among with read | wrote
      · exact inside a read
      · rw [List.mem_singleton.mp wrote]
        change pairSize * front.length + pairSize ≤ shmSize
        omega
  · have same : t.eraseP (ofSession caller.sid) = t :=
      List.eraseP_of_forall_not fun p among isSid => others p among (of_decide_eq_true isSid)
    rw [same]
    split
    · next pid i reads scanned => exact absurd (congrArg Prod.fst scanned) (unfound pid i)
    · next reads scanned =>
      rw [scanned] at inside
      exact ⟨rfl, represents, inside⟩

/-- Without memory for the move nothing is changed. -/
theorem remove_unallocated (calls : ShmCalls) (caller : Caller) (m : Bytes) :
    removePidForThisSid calls caller m =
        removePidForThisSid { calls with allocated := true } caller m ∨
      ((removePidForThisSid calls caller m).mem = m ∧
        (removePidForThisSid calls caller m).accesses = (scan (some caller.sid) m 0).2) := by
  by_cases allocated : calls.allocated = true
  · left
    congr 1
    cases calls
    simp only at allocated
    rw [allocated]
  · rw [Bool.not_eq_true] at allocated
    unfold removePidForThisSid
    by_cases detached : calls.attached = false
    · left
      rw [if_pos detached, if_pos detached]
    · rw [if_neg detached, if_neg detached]
      rcases scan (some caller.sid) m 0 with ⟨result, reads⟩
      cases result with
      | free i => exact .inl rfl
      | full i => exact .inl rfl
      | found pid i =>
        by_cases alive : pid ≠ 0
        · by_cases more : shmSize - i ≠ 0
          · right
            simp only [if_pos alive, if_pos more, if_pos allocated, and_self]
          · left
            simp only [if_pos alive, if_neg more]
            rfl
        · left
          simp only [if_neg alive]
          rfl

/-! ## Reachable tables -/

/-- The memories that serialised calls lead to from the zeroed segment. -/
inductive ShmReachable : Bytes → Prop
  | start {m : Bytes} (zeroed : ∀ k < shmSize, m k = 0) : ShmReachable m
  | add {m : Bytes} (calls : ShmCalls) (caller : Caller) (alive : caller.pid ≠ 0)
      (before : ShmReachable m) : ShmReachable (addSidPidPairToShm calls caller m).mem
  | remove {m : Bytes} (calls : ShmCalls) (caller : Caller) (before : ShmReachable m) :
      ShmReachable (removePidForThisSid calls caller m).mem

theorem represents_nil (zeroed : ∀ k < shmSize, m k = 0) : Represents m [] := by
  refine ⟨by decide, fun p none_ => (by cases none_), fun k => m (shmSize + k), ?_⟩
  funext k
  change m k = holding (.replicate shmSize 0) _ k
  have length : (List.replicate shmSize (0 : UInt8)).length = shmSize := List.length_replicate
  by_cases inside : k < shmSize
  · rw [zeroed k inside, holding_of_lt (by rw [length]; exact inside)]
    simp [inside]
  · obtain ⟨j, rfl⟩ := Nat.exists_eq_add_of_le (not_lt.mp inside)
    have behind := holding_length_add (.replicate shmSize 0) (fun k => m (shmSize + k)) j
    rw [length] at behind
    exact behind.symm

/-- Every reachable segment stands for a table. -/
theorem ShmReachable.represents (reached : ShmReachable m) : ∃ t, Represents m t := by
  induction reached with
  | start zeroed => exact ⟨[], represents_nil zeroed⟩
  | @add m calls caller alive before ih =>
    obtain ⟨t, represents⟩ := ih
    by_cases attached : calls.attached = true
    · rcases lt_or_eq_of_le represents.few with room | full
      · exact ⟨_, (add_spec represents alive attached room).2.1⟩
      · rw [add_full represents attached full]
        exact ⟨t, represents⟩
    · rw [addSidPidPairToShm, if_pos (Bool.not_eq_true _ ▸ attached)]
      exact ⟨t, represents⟩
  | @remove m calls caller before ih =>
    obtain ⟨t, represents⟩ := ih
    by_cases attached : calls.attached = true
    · rcases remove_unallocated calls caller m with same | ⟨unchanged, -⟩
      · rw [same]
        exact ⟨_, (@remove_spec m t caller { calls with allocated := true } represents attached rfl).2.1⟩
      · rw [unchanged]
        exact ⟨t, represents⟩
    · rw [removePidForThisSid, if_pos (Bool.not_eq_true _ ▸ attached)]
      exact ⟨t, represents⟩

theorem ShmReachable.table (reached : ShmReachable m) : Represents m (Ecryptfs.table m) := by
  obtain ⟨t, represents⟩ := reached.represents
  rwa [represents.table]

/-- The bytes of a represented table. -/
theorem Represents.segment (represents : Represents m t) :
    slice m 0 shmSize = encode t ++ .replicate (shmSize - pairSize * t.length) 0 := by
  obtain ⟨beyond, rfl⟩ := represents.bytes
  have length : (encode t ++ zeros t.length).length = shmSize := by
    have few := represents.few
    rw [List.length_append, length_encode, zeros, List.length_replicate]
    simp only [maxPairs, pairSize, pidSize, shmSize] at few ⊢
    omega
  have known := slice_holding (encode t ++ zeros t.length) beyond
  rwa [length] at known

/-- **Inside its segment the table is a list of pairs.**  In every state that serialised calls with
any outcomes lead to, the segment holds the pairs of the list and zeros; a call whose system calls
succeed does to the list what its name says. -/
theorem zombieTable_refines (reached : ShmReachable m) :
    (table m).length ≤ maxPairs ∧
    slice m 0 shmSize =
      encode (table m) ++ .replicate (shmSize - pairSize * (table m).length) 0 ∧
    ∀ caller : Caller, caller.pid ≠ 0 →
      ((table m).length < maxPairs →
        (addSidPidPairToShm {} caller m).rc = 0 ∧
        table (addSidPidPairToShm {} caller m).mem = table m ++ [(caller.sid, caller.pid)]) ∧
      ((table m).length = maxPairs →
        (addSidPidPairToShm {} caller m).rc = -enomem ∧ (addSidPidPairToShm {} caller m).mem = m) ∧
      ((findPidForThisSid {} caller m).2.rc = 0 ∧ (findPidForThisSid {} caller m).2.mem = m ∧
        (findPidForThisSid {} caller m).1 =
          (((table m).find? fun p => p.1 = caller.sid).map Prod.snd).getD 0) ∧
      ((removePidForThisSid {} caller m).rc = 0 ∧
        table (removePidForThisSid {} caller m).mem =
          (table m).eraseP fun p => p.1 = caller.sid) := by
  have represents := reached.table
  refine ⟨represents.few, represents.segment, fun caller alive => ⟨fun room => ?_, fun full => ?_, ?_, ?_⟩⟩
  · obtain ⟨rc, after, -⟩ := @add_spec m _ caller {} represents alive rfl room
    exact ⟨rc, after.table⟩
  · rw [add_full represents rfl full]
    exact ⟨rfl, rfl⟩
  · exact find_spec represents rfl rfl
  · obtain ⟨rc, after, -⟩ := @remove_spec m _ caller {} represents rfl rfl
    exact ⟨rc, after.table⟩

/-- Three processes of two sessions register, and one more process removes the first pair of its session. -/
theorem zombieTable_sessions : ∃ m, ShmReachable m ∧ table m = [(7, 9), (8, 10), (7, 11)] ∧
    table (removePidForThisSid {} ⟨7, 12⟩ m).mem = [(8, 10), (7, 11)] ∧
    (findPidForThisSid {} ⟨7, 12⟩ (removePidForThisSid {} ⟨7, 12⟩ m).mem).1 = 11 := by
  have start : ShmReachable fun _ => 0 := .start fun _ _ => rfl
  have empty : table (fun _ => 0) = [] := (represents_nil fun _ _ => rfl).table
  -- a process that registers adds its pair
  have register : ∀ {m t} (c : Caller), c.pid ≠ 0 → ShmReachable m → table m = t → t.length < maxPairs →
      table (addSidPidPairToShm {} c m).mem = t ++ [(c.sid, c.pid)] := by
    rintro m t c alive reached rfl room
    exact (((zombieTable_refines reached).2.2 c alive).1 room).2
  have first := register ⟨7, 9⟩ (by decide) start empty (by decide)
  have reached₁ : ShmReachable _ := .add {} ⟨7, 9⟩ (by decide) start
  have second := register ⟨8, 10⟩ (by decide) reached₁ first (by decide)
  have reached₂ : ShmReachable _ := .add {} ⟨8, 10⟩ (by decide) reached₁
  have third := register ⟨7, 11⟩ (by decide) reached₂ second (by decide)
  have reached₃ : ShmReachable _ := .add {} ⟨7, 11⟩ (by decide) reached₂
  have removed := ((zombieTable_refines reached₃).2.2 ⟨7, 12⟩ (by decide)).2.2.2.2
  rw [third] at removed
  have found := ((zombieTable_refines (.remove {} ⟨7, 12⟩ reached₃)).2.2 ⟨7, 12⟩ (by decide)).2.2.1.2.2
  rw [removed] at found
  exact ⟨_, reached₃, third, removed, found⟩

/-! ## Accesses of the functions -/

/-- All accesses of all functions that a process can call stay inside the segment. -/
def AccessesInside (m : Bytes) : Prop :=
  ∀ (calls : ShmCalls) (caller : Caller), caller.pid ≠ 0 →
    (∀ a ∈ (addSidPidPairToShm calls caller m).accesses, a.Inside) ∧
    (∀ a ∈ (findPidForThisSid calls caller m).2.accesses, a.Inside) ∧
    (∀ a ∈ (removePidForThisSid calls caller m).accesses, a.Inside) ∧
    ∀ a ∈ (listPidSidPairs calls m).accesses, a.Inside

theorem find_inside (calls : ShmCalls) (caller : Caller) (m : Bytes) :
    ∀ a ∈ (findPidForThisSid calls caller m).2.accesses, a.Inside := by
  have inside := scan_inside (some caller.sid) m (i := 0) (by decide)
  unfold findPidForThisSid
  by_cases detached : calls.attached = false
  · rw [if_pos detached]
    exact fun a none_ => by cases none_
  · rw [if_neg detached]
    split
    · next pid i reads scanned =>
      rw [scanned] at inside
      exact inside
    · next reads scanned =>
      rw [scanned] at inside
      exact inside

theorem list_inside (calls : ShmCalls) (m : Bytes) :
    ∀ a ∈ (listPidSidPairs calls m).accesses, a.Inside := by
  unfold listPidSidPairs
  split_ifs
  · exact fun a none_ => by cases none_
  · exact scan_inside none m (i := 0) (by decide)

theorem remove_inside (represents : Represents m t) (calls : ShmCalls) (caller : Caller) :
    ∀ a ∈ (removePidForThisSid calls caller m).accesses, a.Inside := by
  by_cases attached : calls.attached = true
  · rcases remove_unallocated calls caller m with same | ⟨-, reads⟩
    · rw [same]
      exact (@remove_spec m t caller { calls with allocated := true } represents attached rfl).2.2
    · rw [reads]
      exact scan_inside _ m (i := 0) (by decide)
  · rw [removePidForThisSid, if_pos (Bool.not_eq_true _ ▸ attached)]
    exact fun a none_ => by cases none_

/-- The numbers of pairs with which the terminator is written beyond the segment. -/
def overruns (n : ℕ) : Prop := 255 ≤ n ∧ n ≤ 510

/-- The write of the terminator is the one that may go beyond the segment. -/
theorem add_inside_iff (represents : Represents m t) (alive : caller.pid ≠ 0)
    (attached : calls.attached = true) :
    (∀ a ∈ (addSidPidPairToShm calls caller m).accesses, a.Inside) ↔ ¬ overruns t.length := by
  have reads := scan_inside none m (i := 0) (by decide)
  rcases lt_or_eq_of_le represents.few with room | full
  · obtain ⟨-, -, accesses⟩ := @add_spec m t caller calls represents alive attached room
    have pair : ∀ a ∈ [(⟨pairSize * t.length, pidSize⟩ : Access),
        ⟨pairSize * t.length + pidSize, pidSize⟩], a.Inside := by
      simp only [List.forall_mem_cons, Access.Inside]
      simp only [maxPairs, pairSize, pidSize, shmSize] at room ⊢
      exact ⟨by omega, by omega, fun a none_ => by cases none_⟩
    rw [accesses, List.forall_mem_append, List.forall_mem_append, and_iff_right ⟨reads, pair⟩]
    unfold overruns
    split_ifs with more
    · rw [List.forall_mem_singleton, Access.Inside]
      simp only [maxPairs, pairSize, pidSize, shmSize] at more ⊢
      omega
    · simp only [List.not_mem_nil, false_imp_iff, implies_true, true_iff]
      simp only [maxPairs] at more
      omega
  · rw [add_full represents attached full]
    refine iff_of_true reads ?_
    unfold overruns
    rw [full, maxPairs]
    omega

/-- **The accesses stay inside the segment exactly when the table has less than 255 or more than 510
pairs.** -/
theorem accesses_inside_iff (reached : ShmReachable m) :
    AccessesInside m ↔ ¬ overruns (table m).length := by
  have represents := reached.table
  constructor
  · intro inside
    rw [← @add_inside_iff m _ ⟨1, 1⟩ {} represents (by decide) rfl]
    exact (inside {} ⟨1, 1⟩ (by decide)).1
  · intro condition calls caller alive
    refine ⟨?_, find_inside calls caller m, remove_inside represents calls caller, list_inside calls m⟩
    by_cases attached : calls.attached = true
    · exact (add_inside_iff represents alive attached).mpr condition
    · rw [addSidPidPairToShm, if_pos (Bool.not_eq_true _ ▸ attached)]
      exact fun a none_ => by cases none_

/-- The segment after `n` processes of a session have registered. -/
def crowded (n : ℕ) : Bytes := (fun m => (addSidPidPairToShm {} ⟨7, 9⟩ m).mem)^[n] fun _ => 0

theorem crowded_spec {n : ℕ} (few : n ≤ maxPairs) :
    ShmReachable (crowded n) ∧ (table (crowded n)).length = n := by
  induction n with
  | zero => exact ⟨.start fun _ _ => rfl, congrArg List.length (represents_nil fun _ _ => rfl).table⟩
  | succ n ih =>
    obtain ⟨reached, length⟩ := ih (by omega)
    have next : crowded (n + 1) = (addSidPidPairToShm {} ⟨7, 9⟩ (crowded n)).mem :=
      Function.iterate_succ_apply' _ _ _
    obtain ⟨-, after, -⟩ := @add_spec _ _ ⟨7, 9⟩ {} reached.table (by decide) rfl (by omega)
    rw [next]
    refine ⟨.add {} ⟨7, 9⟩ (by decide) reached, ?_⟩
    rw [after.table, List.length_append, length, List.length_singleton]

/-- A table with 254 pairs is handled inside the segment, and so is a full one. -/
theorem accesses_inside_crowded : AccessesInside (crowded 254) ∧ AccessesInside (crowded maxPairs) := by
  obtain ⟨reached, length⟩ := @crowded_spec 254 (by decide)
  obtain ⟨reached', length'⟩ := crowded_spec (le_refl maxPairs)
  refine ⟨(accesses_inside_iff reached).mpr ?_, (accesses_inside_iff reached').mpr ?_⟩
  · rw [length, overruns]
    decide
  · rw [length', overruns]
    decide

/-- With 255 pairs in the table, a further one is written with zeros beyond the segment. -/
theorem add_beyond_segment : ShmReachable (crowded 255) ∧ (table (crowded 255)).length = 255 ∧
    ¬ ∀ a ∈ (addSidPidPairToShm {} ⟨7, 9⟩ (crowded 255)).accesses, a.Inside := by
  obtain ⟨reached, length⟩ := @crowded_spec 255 (by decide)
  refine ⟨reached, length, ?_⟩
  rw [@add_inside_iff _ _ ⟨7, 9⟩ {} reached.table (by decide) rfl, length, not_not]
  exact ⟨le_refl _, by decide⟩

end Ecryptfs
