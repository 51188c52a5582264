import Ecryptfs.CString

/-!
# The update of the mount table

After a mount `update_mtab` copies `/etc/mtab` entry by entry to `/etc/mtab.tmp`, adds the new entry and
renames the copy, with `/etc/mtab~` as a lock around all of it.  Three labels undo what was done when a call
fails.  A direct return keeps the lock, and the labels close the old table again when it was closed
already; `updateMtab_iff` says on which outcomes of the calls the table is updated or left alone and
nothing remains.
-/

namespace Ecryptfs

/-- An entry of `/etc/mtab`. -/
structure MtabEntry where
  fsname : CStr
  dir : CStr
  fstype : CStr
  opts : CStr
  freq : ℤ
  passno : ℤ
  deriving DecidableEq

/-- What the calls of `update_mtab` come to: whether `/etc/mtab` is a symbolic link, how many entries
`getmntent` delivers before it ends, and which of the other calls succeed, `addOld i` being the `addmntent`
of the entry number `i`. -/
structure MtabCalls where
  symlink : Bool
  openLock : Bool
  openOld : Bool
  openTmp : Bool
  delivered : ℕ
  addOld : ℕ → Bool
  addNew : Bool
  fchmod : Bool
  rename : Bool
  unlinkTmp : Bool
  unlinkLock : Bool

/-- The entries of `/etc/mtab`, those of `/etc/mtab.tmp` if there is one, whether there is a lock file
`/etc/mtab~`, and the umask of the program. -/
structure MtabFiles where
  mtab : List MtabEntry
  tmp : Option (List MtabEntry)
  lock : Bool
  umask : ℕ
  deriving DecidableEq

/-- The files, and which of the two streams are open. -/
structure MtabRun extends MtabFiles where
  oldOpen : Bool
  newOpen : Bool

/-- `endmntent` of the old table, `none` when it was closed before. -/
def MtabRun.endOld (s : MtabRun) : Option MtabRun :=
  if s.oldOpen then some { s with oldOpen := false } else none

/-- `endmntent` of the new table. -/
def MtabRun.endNew (s : MtabRun) : Option MtabRun :=
  if s.newOpen then some { s with newOpen := false } else none

section

variable (calls : MtabCalls) (oldUmask : ℕ)

/-- The lock file is deleted and the umask restored. -/
def MtabRun.release (s : MtabRun) : MtabFiles :=
  { s.toMtabFiles with lock := if calls.unlinkLock then false else s.lock, umask := oldUmask }

/-- The label `fail_early`. -/
def MtabRun.failEarly (s : MtabRun) : Option (ℤ × MtabFiles) :=
  s.endOld.map fun s => (1, s.release calls oldUmask)

/-- The label `fail_late`. -/
def MtabRun.failLate (s : MtabRun) : Option (ℤ × MtabFiles) :=
  MtabRun.failEarly calls oldUmask { s with tmp := if calls.unlinkTmp then none else s.tmp }

/-- The label `fail`. -/
def MtabRun.fail (s : MtabRun) : Option (ℤ × MtabFiles) :=
  s.endNew.bind fun s => s.failLate calls oldUmask

/-- The loop that copies the entries from number `i` on: whether all of them were added, and which. -/
def copyEntries (addOld : ℕ → Bool) (i : ℕ) : List MtabEntry → Bool × List MtabEntry
  | [] => (true, [])
  | e :: es =>
    if addOld i then
      let rest := copyEntries addOld (i + 1) es
      (rest.1, e :: rest.2)
    else (false, [])

/-- The part of `update_mtab` after the loop, on a new table that holds the entries read. -/
def MtabRun.finish (new : MtabEntry) (s : MtabRun) : Option (ℤ × MtabFiles) :=
  s.endOld.bind fun s =>
    if calls.addNew = false then s.fail calls oldUmask
    else
      let s := { s with tmp := s.tmp.map (· ++ [new]) }
      if calls.fchmod = false then s.fail calls oldUmask
      else s.endNew.bind fun s =>
        if calls.rename = false then s.failLate calls oldUmask
        else
          let s := { s with mtab := s.tmp.getD s.mtab, tmp := none }
          some (0, s.release calls oldUmask)

/-- The part of `update_mtab` after the lock file is created. -/
def updateLocked (new : MtabEntry) (s : MtabFiles) : Option (ℤ × MtabFiles) :=
  if calls.openOld = false then some (1, s)
  else
    let s : MtabRun := { s with oldOpen := true, newOpen := false }
    if calls.openTmp = false then s.failEarly calls oldUmask
    else
      let copied := copyEntries calls.addOld 0 (s.mtab.take calls.delivered)
      let s := { s with tmp := some copied.2, newOpen := true }
      if copied.1 = false then s.fail calls oldUmask
      else s.finish calls oldUmask new

end

/-- The entry that is added for a mount. -/
def mountEntry (dev mnt opt : CStr) : MtabEntry :=
  { fsname := dev, dir := mnt, fstype := "ecryptfs", opts := opt, freq := 0, passno := 0 }

/-- `update_mtab`: the return value and the files afterwards, `none` when a stream is closed twice. -/
def updateMtab (calls : MtabCalls) (dev mnt opt : CStr) (s : MtabFiles) : Option (ℤ × MtabFiles) :=
  if calls.symlink then some (0, s)
  else
    let oldUmask := s.umask
    let s := { s with umask := 27 }
    if s.lock ∨ calls.openLock = false then some (1, s)
    else updateLocked calls oldUmask (mountEntry dev mnt opt) { s with lock := true }

/-- The entry is added with code zero or the table left alone with code one, and nothing remains of the
update. -/
structure MtabUpdated (new : MtabEntry) (before : MtabFiles) (rc : ℤ) (after : MtabFiles) : Prop where
  atomic : rc = 0 ∧ after.mtab = before.mtab ++ [new] ∨ rc = 1 ∧ after.mtab = before.mtab
  noLock : after.lock = false
  noTmp : after.tmp = none
  umask : after.umask = before.umask

/-- `update_mtab` gets as far as creating the lock file. -/
structure MtabCalls.Locks (calls : MtabCalls) (s : MtabFiles) : Prop where
  noLink : calls.symlink = false
  free : s.lock = false
  created : calls.openLock = true

/-- The outcomes on which the update is finished or undone: the old table can be opened and the lock file
deleted; and the new table cannot be opened, and was not there; or an entry cannot be copied, and the new
table can be deleted; or all entries are read and copied, and what follows succeeds. -/
def MtabCalls.Clean (calls : MtabCalls) (s : MtabFiles) : Prop :=
  calls.openOld = true ∧ calls.unlinkLock = true ∧
    ((calls.openTmp = false ∧ s.tmp = none) ∨
      (calls.openTmp = true ∧ calls.unlinkTmp = true ∧
        ∃ i < min calls.delivered s.mtab.length, calls.addOld i = false) ∨
      (calls.openTmp = true ∧ s.mtab.length ≤ calls.delivered ∧
        (∀ i < s.mtab.length, calls.addOld i = true) ∧ calls.addNew = true ∧ calls.fchmod = true ∧
          calls.rename = true))

variable {calls : MtabCalls} {new : MtabEntry} {u : ℕ}

/-! ## The loop -/

theorem copyEntries_all {addOld : ℕ → Bool} {i : ℕ} {es : List MtabEntry}
    (adds : ∀ k < es.length, addOld (i + k) = true) : copyEntries addOld i es = (true, es) := by
  induction es generalizing i with
  | nil => rfl
  | cons e es ih =>
    have first : addOld i = true := adds 0 (Nat.succ_pos _)
    have rest : copyEntries addOld (i + 1) es = (true, es) := by
      refine ih fun k inside => ?_
      rw [Nat.add_right_comm, Nat.add_assoc]
      exact adds (k + 1) (Nat.succ_lt_succ inside)
    rw [copyEntries, if_pos first, rest]

theorem copyEntries_stops {addOld : ℕ → Bool} {i : ℕ} {es : List MtabEntry} {k : ℕ} (inside : k < es.length)
    (fails : addOld (i + k) = false) : (copyEntries addOld i es).1 = false := by
  induction es generalizing i k with
  | nil => cases inside
  | cons e es ih =>
    by_cases first : addOld i = true
    · rw [copyEntries, if_pos first]
      rcases k with _ | k
      · rw [Nat.add_zero, first] at fails
        cases fails
      · have fails : addOld (i + 1 + k) = false := by rwa [Nat.add_right_comm, Nat.add_assoc]
        exact ih (Nat.lt_of_succ_lt_succ inside) fails
    · rw [copyEntries, if_neg first]

/-! ## The labels -/

/-- The label `fail` with both streams open. -/
theorem fail_eq {s : MtabRun} (old : s.oldOpen = true) (open_ : s.newOpen = true) :
    s.fail calls u = some (1, { s.toMtabFiles with
      tmp := if calls.unlinkTmp then none else s.tmp
      lock := if calls.unlinkLock then false else s.lock
      umask := u }) := by
  simp [MtabRun.fail, MtabRun.endNew, MtabRun.failLate, MtabRun.failEarly, MtabRun.endOld, MtabRun.release,
    old, open_]

/-- Behind the loop the old table is closed, so that every label closes it once more. -/
theorem finish_eq {s : MtabRun} (old : s.oldOpen = true) (open_ : s.newOpen = true)
    {written : List MtabEntry} (tmp : s.tmp = some written) :
    s.finish calls u new =
      if calls.addNew = true ∧ calls.fchmod = true ∧ calls.rename = true then
        some (0, { mtab := written ++ [new]
                   tmp := none
                   lock := if calls.unlinkLock then false else s.lock
                   umask := u })
      else none := by
  unfold MtabRun.finish
  rcases calls.addNew <;> rcases calls.fchmod <;> rcases calls.rename <;>
    simp [MtabRun.endOld, MtabRun.endNew, MtabRun.fail, MtabRun.failLate, MtabRun.failEarly,
      MtabRun.release, old, open_, tmp]

/-! ## The update -/

variable {s : MtabFiles} {dev mnt opt : CStr}

theorem updateMtab_locked (locks : calls.Locks s) : updateMtab calls dev mnt opt s =
    updateLocked calls s.umask (mountEntry dev mnt opt) { s with umask := 27, lock := true } := by
  unfold updateMtab
  rw [if_neg (by simp [locks.noLink])]
  dsimp only
  rw [if_neg (by simp [locks.free, locks.created])]

/-- An outcome with known files is right or not. -/
theorem updated_iff {result : Option (ℤ × MtabFiles)} {rc : ℤ} {after : MtabFiles}
    (isResult : result = some (rc, after)) :
    (∃ rc after, result = some (rc, after) ∧ MtabUpdated new s rc after) ↔ MtabUpdated new s rc after := by
  constructor
  · rintro ⟨rc', after', isResult', updated⟩
    obtain ⟨rfl, rfl⟩ := Prod.mk.inj (Option.some.inj (isResult.symm.trans isResult'))
    exact updated
  · exact fun updated => ⟨rc, after, isResult, updated⟩

theorem updated_failed {after : MtabFiles} : MtabUpdated new s 1 after ↔
    after.mtab = s.mtab ∧ after.lock = false ∧ after.tmp = none ∧ after.umask = s.umask := by
  constructor
  · rintro ⟨⟨zero, -⟩ | ⟨-, same⟩, noLock, noTmp, umask⟩
    · cases zero
    · exact ⟨same, noLock, noTmp, umask⟩
  · rintro ⟨same, noLock, noTmp, umask⟩
    exact ⟨.inr ⟨rfl, same⟩, noLock, noTmp, umask⟩

theorem updated_done {after : MtabFiles} : MtabUpdated new s 0 after ↔
    after.mtab = s.mtab ++ [new] ∧ after.lock = false ∧ after.tmp = none ∧ after.umask = s.umask := by
  constructor
  · rintro ⟨⟨-, added⟩ | ⟨one, -⟩, noLock, noTmp, umask⟩
    · exact ⟨added, noLock, noTmp, umask⟩
    · cases one
  · rintro ⟨added, noLock, noTmp, umask⟩
    exact ⟨.inl ⟨rfl, added⟩, noLock, noTmp, umask⟩

/-- The update is finished when the copy is the old table and what follows succeeds. -/
theorem finish_updated {r : MtabRun} (old : r.oldOpen = true) (open_ : r.newOpen = true)
    (locked : r.lock = true) {written : List MtabEntry} (tmp : r.tmp = some written) :
    (∃ rc after, r.finish calls s.umask new = some (rc, after) ∧ MtabUpdated new s rc after) ↔
      calls.unlinkLock = true ∧ written = s.mtab ∧
        (calls.addNew = true ∧ calls.fchmod = true ∧ calls.rename = true) := by
  rw [finish_eq old open_ tmp]
  by_cases works : calls.addNew = true ∧ calls.fchmod = true ∧ calls.rename = true
  · rw [if_pos works, updated_iff rfl, updated_done]
    dsimp only
    rw [List.append_left_inj]
    constructor
    · rintro ⟨whole, noLock, -⟩
      exact ⟨by simpa [locked] using noLock, whole, works⟩
    · rintro ⟨unlinked, whole, -⟩
      exact ⟨whole, by simp [unlinked], rfl, rfl⟩
  · rw [if_neg works]
    exact iff_of_false (fun ⟨rc, after, isResult, _⟩ => by cases isResult) fun both => works both.2.2

/-- The update is undone when both files can be deleted. -/
theorem fail_updated {r : MtabRun} (old : r.oldOpen = true) (open_ : r.newOpen = true)
    (locked : r.lock = true) (same : r.mtab = s.mtab) {written : List MtabEntry} (tmp : r.tmp = some written) :
    (∃ rc after, r.fail calls s.umask = some (rc, after) ∧ MtabUpdated new s rc after) ↔
      calls.unlinkLock = true ∧ calls.unlinkTmp = true := by
  rw [updated_iff (fail_eq old open_), updated_failed]
  dsimp only
  constructor
  · rintro ⟨-, noLock, noTmp, -⟩
    exact ⟨by simpa [locked] using noLock, by simpa [tmp] using noTmp⟩
  · rintro ⟨unlinkLock, unlinkTmp⟩
    exact ⟨same, by simp [unlinkLock], by simp [unlinkTmp], rfl⟩

/-- **When an update of the mount table is atomic.**  Once the lock file is created, the new entry is added
with code zero or the table left alone with code one, with no lock file or new table left over and the umask
restored, exactly on the outcomes `MtabCalls.Clean`. -/
theorem updateMtab_iff (locks : calls.Locks s) (dev mnt opt : CStr) :
    (∃ rc after, updateMtab calls dev mnt opt s = some (rc, after) ∧
      MtabUpdated (mountEntry dev mnt opt) s rc after) ↔ calls.Clean s := by
  rw [updateMtab_locked locks]
  unfold updateLocked MtabCalls.Clean
  by_cases openOld : calls.openOld = false
  · -- the lock file stays behind
    rw [if_pos openOld, updated_iff rfl]
    refine iff_of_false (fun updated => ?_) fun clean => ?_
    · cases updated.noLock
    · rw [openOld] at clean
      cases clean.1
  rw [if_neg openOld]
  rw [Bool.not_eq_false] at openOld
  dsimp only
  by_cases openTmp : calls.openTmp = false
  · have failed : MtabRun.failEarly calls s.umask
        { s with umask := 27, lock := true, oldOpen := true, newOpen := false } =
          some (1, { s with lock := if calls.unlinkLock then false else true }) := rfl
    rw [if_pos openTmp, updated_iff failed, updated_failed]
    simp [openOld, openTmp]
  rw [if_neg openTmp]
  rw [Bool.not_eq_false] at openTmp
  by_cases all : ∀ k < (s.mtab.take calls.delivered).length, calls.addOld (0 + k) = true
  · rw [copyEntries_all all]
    simp only [List.length_take, Nat.zero_add] at all
    dsimp only
    rw [if_neg (by simp), finish_updated rfl rfl rfl rfl, List.take_eq_self_iff]
    constructor
    · rintro ⟨unlinked, read, works⟩
      exact ⟨openOld, unlinked, .inr (.inr ⟨openTmp, read, fun i inside => all i (by omega), works⟩)⟩
    · rintro ⟨-, unlinked, ⟨closed, -⟩ | ⟨-, -, i, inside, fails⟩ | ⟨-, read, -, works⟩⟩
      · cases openTmp.symm.trans closed
      · cases (all i inside).symm.trans fails
      · exact ⟨unlinked, read, works⟩
  · simp only [not_forall, Bool.not_eq_true, Nat.zero_add] at all
    obtain ⟨k, inside, fails⟩ := all
    rw [copyEntries_stops inside (by rwa [Nat.zero_add]), if_pos rfl, fail_updated (s := s) rfl rfl rfl rfl rfl]
    rw [List.length_take] at inside
    constructor
    · rintro ⟨unlinkLock, unlinkTmp⟩
      exact ⟨openOld, unlinkLock, .inr (.inl ⟨openTmp, unlinkTmp, k, inside, fails⟩)⟩
    · rintro ⟨-, unlinkLock, ⟨closed, -⟩ | ⟨-, unlinkTmp, -⟩ | ⟨-, -, adds, -⟩⟩
      · cases openTmp.symm.trans closed
      · exact ⟨unlinkLock, unlinkTmp⟩
      · cases (adds k (by omega)).symm.trans fails

/-- All calls succeed, and all entries are read. -/
def mtabSucceeds (n : ℕ) : MtabCalls :=
  { symlink := false, openLock := true, openOld := true, openTmp := true, delivered := n
    addOld := fun _ => true, addNew := true, fchmod := true, rename := true, unlinkTmp := true
    unlinkLock := true }

/-- A table with a disk and the temporary files. -/
def twoEntries : MtabFiles where
  mtab := [⟨lit "/dev/sda1", lit "/", lit "ext4", lit "rw", 0, 1⟩,
    ⟨lit "tmpfs", lit "/tmp", lit "tmpfs", lit "rw,nosuid", 0, 0⟩]
  tmp := none
  lock := false
  umask := 18

/-- An update of that table without a failure, and one in which the second entry cannot be copied. -/
theorem updateMtab_two : (∃ rc after,
    updateMtab (mtabSucceeds 2) "/home/u/.Private" "/home/u/Private" "rw" twoEntries = some (rc, after) ∧
      MtabUpdated (mountEntry "/home/u/.Private" "/home/u/Private" "rw") twoEntries rc after) ∧
    ∃ rc after, updateMtab { mtabSucceeds 2 with addOld := fun i => i = 0 } "/home/u/.Private" "/home/u/Private"
        "rw" twoEntries = some (rc, after) ∧
      MtabUpdated (mountEntry "/home/u/.Private" "/home/u/Private" "rw") twoEntries rc after := by
  constructor
  · exact (updateMtab_iff (show (mtabSucceeds 2).Locks twoEntries from ⟨rfl, rfl, rfl⟩) _ _ _).mpr
      ⟨rfl, rfl, .inr (.inr ⟨rfl, le_rfl, fun _ _ => rfl, rfl, rfl, rfl⟩)⟩
  · exact (updateMtab_iff (show ({ mtabSucceeds 2 with addOld := fun i => i = 0 } : MtabCalls).Locks twoEntries
      from ⟨rfl, rfl, rfl⟩) _ _ _).mpr ⟨rfl, rfl, .inr (.inl ⟨rfl, rfl, 1, by decide, by decide⟩)⟩

/-- When `/etc/mtab` cannot be opened, the lock file stays. -/
theorem updateMtab_keeps_lock :
    ({ mtabSucceeds 0 with openOld := false } : MtabCalls).Locks ⟨[], none, false, 18⟩ ∧
      ¬ ∃ rc after, updateMtab { mtabSucceeds 0 with openOld := false } "/home/u/.Private"
        "/home/u/Private" "rw" ⟨[], none, false, 18⟩ = some (rc, after) ∧
        MtabUpdated (mountEntry "/home/u/.Private" "/home/u/Private" "rw") ⟨[], none, false, 18⟩ rc after := by
  refine ⟨⟨rfl, rfl, rfl⟩, ?_⟩
  rintro ⟨rc, after, isResult, updated⟩
  obtain ⟨rfl, rfl⟩ := Prod.mk.inj (Option.some.inj isResult)
  cases updated.noLock

end Ecryptfs
