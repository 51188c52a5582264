import Mathlib.Tactic

/-!
# Credentials of a process

The user and group ids of a Linux process, and what it may do to them.  `CAP_SETUID` and `CAP_SETGID`
allow every change; without them an id can only be exchanged for another one of the same process.  When
the user ids change from or to zero, the kernel adapts the capabilities.

Each call has a flag `ok`, which is false when the call fails for a reason other than permission; a call
that fails leaves the credentials as they are.
-/

namespace Credentials

/-- A capability that a process does not have, or has permitted, or effective as well. -/
inductive Cap where
  | absent
  | permitted
  | effective
  deriving DecidableEq

/-- A capability that is no longer effective. -/
def Cap.lower : Cap → Cap
  | .effective => .permitted
  | cap => cap

/-- A capability that is effective as far as it is permitted. -/
def Cap.raise : Cap → Cap
  | .permitted => .effective
  | cap => cap

end Credentials

/-- The credentials of a process: its real, effective and saved ids, its supplementary groups, the two
capabilities, and the securebits `SECBIT_KEEP_CAPS` and `SECBIT_NO_SETUID_FIXUP`. -/
structure Creds where
  ruid : ℕ
  euid : ℕ
  suid : ℕ
  rgid : ℕ
  egid : ℕ
  sgid : ℕ
  groups : List ℕ
  capSetuid : Credentials.Cap
  capSetgid : Credentials.Cap
  keepCaps : Bool
  noSetuidFixup : Bool
  deriving DecidableEq

namespace Creds

open Credentials

/-- Both capabilities are changed in the same way. -/
def mapCaps (c : Creds) (f : Cap → Cap) : Creds :=
  { c with capSetuid := f c.capSetuid, capSetgid := f c.capSetgid }

/-- One of the user ids is zero. -/
def SomeRoot (c : Creds) : Prop := c.ruid = 0 ∨ c.euid = 0 ∨ c.suid = 0

instance (c : Creds) : Decidable c.SomeRoot := inferInstanceAs (Decidable (_ ∨ _))

/-- What happens to a capability when the user ids of `old` become those of `new`. -/
def capChange (old new : Creds) (cap : Cap) : Cap :=
  if old.noSetuidFixup then cap
  else
    let cap := if old.SomeRoot ∧ ¬ new.SomeRoot ∧ old.keepCaps = false then .absent else cap
    if old.euid = 0 ∧ new.euid ≠ 0 then cap.lower
    else if old.euid ≠ 0 ∧ new.euid = 0 then cap.raise
    else cap

/-- The credentials `new` with the capabilities adapted, the user ids having been those of `old`. -/
def fixup (old new : Creds) : Creds := new.mapCaps (capChange old new)

/-- The credentials with another effective user id. -/
def withEuid (c : Creds) (uid : ℕ) : Creds := c.fixup { c with euid := uid }

/-- The credentials with one user id for all three. -/
def withUid (c : Creds) (uid : ℕ) : Creds := c.fixup { c with ruid := uid, euid := uid, suid := uid }

/-- `seteuid` is permitted. -/
def MaySeteuid (c : Creds) (uid : ℕ) : Prop :=
  c.capSetuid = .effective ∨ uid = c.ruid ∨ uid = c.euid ∨ uid = c.suid

instance (c : Creds) (uid : ℕ) : Decidable (c.MaySeteuid uid) := inferInstanceAs (Decidable (_ ∨ _))

/-- `setegid` is permitted. -/
def MaySetegid (c : Creds) (gid : ℕ) : Prop :=
  c.capSetgid = .effective ∨ gid = c.rgid ∨ gid = c.egid ∨ gid = c.sgid

instance (c : Creds) (gid : ℕ) : Decidable (c.MaySetegid gid) := inferInstanceAs (Decidable (_ ∨ _))

/-- `seteuid`, with whether it succeeds. -/
def seteuid (ok : Bool) (uid : ℕ) (c : Creds) : Bool × Creds :=
  if ok ∧ c.MaySeteuid uid then (true, c.withEuid uid) else (false, c)

/-- `setegid`, with whether it succeeds. -/
def setegid (ok : Bool) (gid : ℕ) (c : Creds) : Bool × Creds :=
  if ok ∧ c.MaySetegid gid then (true, { c with egid := gid }) else (false, c)

/-- `setgroups`, with whether it succeeds. -/
def setgroups (ok : Bool) (groups : List ℕ) (c : Creds) : Bool × Creds :=
  if ok ∧ c.capSetgid = .effective then (true, { c with groups }) else (false, c)

/-- `setuid`, with whether it succeeds. -/
def setuid (ok : Bool) (uid : ℕ) (c : Creds) : Bool × Creds :=
  if ok = false then (false, c)
  else if c.capSetuid = .effective then (true, c.withUid uid)
  else if uid = c.ruid ∨ uid = c.suid then (true, c.withEuid uid)
  else (false, c)

/-! ## Capabilities after a change of the effective user id -/

/-- `CAP_SETUID` is effective after the effective user id has become `uid`. -/
def KeepsSetuid (c : Creds) (uid : ℕ) : Prop :=
  if c.noSetuidFixup ∨ (c.euid = 0 ↔ uid = 0) then c.capSetuid = .effective
  else c.euid ≠ 0 ∧ c.capSetuid ≠ .absent

/-- `CAP_SETGID`, once effective, is so again when the effective user id has become `uid` and what it was
before. -/
def KeepsSetgid (c : Creds) (uid : ℕ) : Prop := c.noSetuidFixup ∨ c.euid = 0 ∨ uid ≠ 0

variable {c : Creds} {uid : ℕ}

theorem withEuid_of_noSetuidFixup (off : c.noSetuidFixup = true) :
    c.withEuid uid = { c with euid := uid } := by
  have unchanged : capChange c { c with euid := uid } = id := by
    funext cap
    rw [capChange, if_pos off, id]
  rw [withEuid, fixup, unchanged]
  rfl

/-- Nothing happens to the capabilities while the effective user id stays zero or stays nonzero. -/
theorem withEuid_of_iff (same : c.euid = 0 ↔ uid = 0) : c.withEuid uid = { c with euid := uid } := by
  have unchanged : capChange c { c with euid := uid } = id := by
    funext cap
    unfold capChange SomeRoot
    simp only [same, id_eq]
    split_ifs <;> first | rfl | omega
  rw [withEuid, fixup, unchanged]
  rfl

theorem Cap.lower_ne_effective (cap : Cap) : cap.lower ≠ .effective := by
  cases cap <;> decide

theorem Cap.raise_eq_effective {cap : Cap} : cap.raise = .effective ↔ cap ≠ .absent := by
  cases cap <;> decide

/-- A capability is lowered when the effective user id is no longer zero, or lost. -/
theorem capChange_of_root (on : c.noSetuidFixup = false) (root : c.euid = 0) (other : uid ≠ 0) (cap : Cap) :
    capChange c { c with euid := uid } cap =
      if c.ruid ≠ 0 ∧ c.suid ≠ 0 ∧ c.keepCaps = false then .absent else cap.lower := by
  unfold capChange SomeRoot
  simp only [on, root, other]
  split_ifs <;> first | rfl | simp_all

/-- A capability is raised when the effective user id becomes zero. -/
theorem capChange_to_root (on : c.noSetuidFixup = false) (other : c.euid ≠ 0) (cap : Cap) :
    capChange c { c with euid := 0 } cap = cap.raise := by
  unfold capChange SomeRoot
  simp [on, other]

theorem capSetuid_withEuid : (c.withEuid uid).capSetuid = .effective ↔ c.KeepsSetuid uid := by
  unfold KeepsSetuid
  split_ifs with same
  · rcases same with off | same
    · rw [withEuid_of_noSetuidFixup off]
    · rw [withEuid_of_iff same]
  · obtain ⟨on, differ⟩ := not_or.mp same
    have on : c.noSetuidFixup = false := Bool.eq_false_iff.mpr on
    show capChange c { c with euid := uid } c.capSetuid = .effective ↔ _
    by_cases root : c.euid = 0
    · have other : uid ≠ 0 := fun zero => differ (iff_of_true root zero)
      rw [capChange_of_root on root other]
      refine iff_of_false ?_ fun both => both.1 root
      split_ifs
      · decide
      · exact Cap.lower_ne_effective _
    · have zero : uid = 0 := by
        by_contra other
        exact differ (iff_of_false root other)
      rw [zero, capChange_to_root on root, Cap.raise_eq_effective]
      exact (and_iff_right root).symm

/-- The way back to the effective user id zero is open only with a real or saved user id zero. -/
theorem root_of_maySeteuid (on : c.noSetuidFixup = false) (root : c.euid = 0) (other : uid ≠ 0)
    (back : (c.withEuid uid).MaySeteuid c.euid) : c.ruid = 0 ∨ c.suid = 0 := by
  rcases back with cap | isReal | isEffective | isSaved
  · have keeps := capSetuid_withEuid.mp cap
    rw [KeepsSetuid, if_neg (by simp [on, root, other])] at keeps
    exact absurd root keeps.1
  · exact .inl (isReal.symm.trans root)
  · exact absurd (isEffective.symm.trans root) other
  · exact .inr (isSaved.symm.trans root)

/-- `CAP_SETGID` after the effective user id has become `uid`, and then again what it was before; the
other user ids may have changed in between. -/
theorem capSetgid_back {d : Creds} (effective : c.capSetgid = .effective)
    (fixes : d.noSetuidFixup = c.noSetuidFixup) (euid : d.euid = uid)
    (cap : d.capSetgid = (c.withEuid uid).capSetgid)
    (open_ : c.noSetuidFixup = false → c.euid = 0 → uid ≠ 0 → c.ruid = 0 ∨ c.suid = 0) :
    (d.withEuid c.euid).capSetgid = .effective ↔ c.KeepsSetgid uid := by
  unfold KeepsSetgid
  rcases off : c.noSetuidFixup with _ | _
  · by_cases same : c.euid = 0 ↔ uid = 0
    · rw [withEuid_of_iff (euid.symm ▸ same.symm), cap, withEuid_of_iff same]
      refine iff_of_true effective (.inr ?_)
      rw [same]
      exact em _
    · have on : d.noSetuidFixup = false := fixes.trans off
      show capChange d { d with euid := c.euid } d.capSetgid = .effective ↔ _
      rw [cap]
      show capChange d { d with euid := c.euid } (capChange c { c with euid := uid } c.capSetgid) =
        .effective ↔ _
      by_cases root : c.euid = 0
      · have other : uid ≠ 0 := fun zero => same (iff_of_true root zero)
        have nothing : ¬ (c.ruid ≠ 0 ∧ c.suid ≠ 0 ∧ c.keepCaps = false) := by
          have isOpen := open_ off root other
          tauto
        rw [capChange_of_root off root other, if_neg nothing, effective, root,
          capChange_to_root on (euid.symm ▸ other)]
        exact iff_of_true rfl (.inr (.inl rfl))
      · have zero : uid = 0 := by
          by_contra other
          exact same (iff_of_false root other)
        subst zero
        rw [capChange_to_root off root, capChange_of_root on euid root]
        refine iff_of_false ?_ (by simp [root])
        split_ifs
        · decide
        · exact Cap.lower_ne_effective _
  · rw [withEuid_of_noSetuidFixup (fixes.trans off), cap, withEuid_of_noSetuidFixup off]
    exact iff_of_true effective (.inl rfl)

/-- A process that gives its last zero up has no capability left. -/
theorem capChange_lost (euid : c.euid = uid) (other : uid ≠ 0) (root : c.ruid = 0 ∨ c.suid = 0)
    (drops : c.keepCaps = false) (on : c.noSetuidFixup = false) (cap : Cap) :
    capChange c { c with ruid := uid, euid := uid, suid := uid } cap = .absent := by
  have notRoot : c.euid ≠ 0 := euid.symm ▸ other
  have lost : c.SomeRoot ∧ ¬ ({ c with ruid := uid, euid := uid, suid := uid } : Creds).SomeRoot ∧
      c.keepCaps = false := by
    refine ⟨by unfold SomeRoot; tauto, ?_, drops⟩
    simp only [SomeRoot, other, or_self, not_false_eq_true]
  unfold capChange
  rw [if_neg (by simp [on])]
  dsimp only
  rw [if_pos lost, if_neg (by simp [notRoot]), if_neg (by simp [other])]

/-- A process that has no zero to give up, or keeps one, keeps its capabilities. -/
theorem capChange_kept (euid : c.euid = uid)
    (keeps : c.noSetuidFixup = true ∨ c.keepCaps = true ∨ uid = 0 ∨ c.ruid ≠ 0 ∧ c.suid ≠ 0)
    (cap : Cap) :
    capChange c { c with ruid := uid, euid := uid, suid := uid } cap = cap := by
  subst euid
  by_cases off : c.noSetuidFixup = true
  · rw [capChange, if_pos off]
  · have kept : ¬ (c.SomeRoot ∧ ¬ ({ c with ruid := c.euid, suid := c.euid } : Creds).SomeRoot ∧
        c.keepCaps = false) := by
      rintro ⟨root, notRoot, drops⟩
      unfold SomeRoot at root notRoot
      rcases keeps with isOff | keeps | zero | noZero
      · exact off isOff
      · exact Bool.false_ne_true (drops.symm.trans keeps)
      · exact notRoot (.inr (.inl zero))
      · tauto
    unfold capChange
    rw [if_neg off]
    dsimp only
    rw [if_neg kept, if_neg fun both => both.2 both.1, if_neg fun both => both.1 both.2]

/-! ## Single calls -/

variable {ok : Bool} {gid : ℕ} {groups : List ℕ}

/-- A change to the effective user id that is there already has no effect. -/
theorem seteuid_self (same : c.euid = uid) : (c.seteuid ok uid).2 = c := by
  subst same
  unfold seteuid
  split_ifs
  · exact withEuid_of_iff Iff.rfl
  · rfl

theorem seteuid_euid (target : ℕ) : (c.seteuid ok target).2.euid = target ↔
    c.euid = target ∨ ok ∧ c.MaySeteuid target := by
  unfold seteuid
  split_ifs with done
  · exact iff_of_true rfl (.inr done)
  · exact (or_iff_left done).symm

theorem setegid_egid (target : ℕ) : (c.setegid ok target).2.egid = target ↔
    c.egid = target ∨ ok ∧ c.MaySetegid target := by
  unfold setegid
  split_ifs with done
  · exact iff_of_true rfl (.inr done)
  · exact (or_iff_left done).symm

theorem setgroups_groups (target : List ℕ) : (c.setgroups ok target).2.groups = target ↔
    c.groups = target ∨ ok ∧ c.capSetgid = .effective := by
  unfold setgroups
  split_ifs with done
  · exact iff_of_true rfl (.inr done)
  · exact (or_iff_left done).symm

/-- `seteuid` leaves the effective user id if that is the target, or if the call fails. -/
theorem seteuid_keeps : (c.seteuid ok uid).2.euid = c.euid ↔ c.euid = uid ∨ ¬ (ok ∧ c.MaySeteuid uid) := by
  unfold seteuid
  split_ifs with done
  · rw [or_iff_left (not_not.mpr done)]
    exact eq_comm
  · exact iff_of_true rfl (.inr done)

/-- If `seteuid` leaves the effective user id, it leaves everything. -/
theorem seteuid_unchanged (keeps : (c.seteuid ok uid).2.euid = c.euid) : (c.seteuid ok uid).2 = c := by
  rcases seteuid_keeps.mp keeps with same | failed
  · exact seteuid_self same
  · rw [seteuid, if_neg failed]

theorem setegid_keeps : (c.setegid ok gid).2.egid = c.egid ↔ c.egid = gid ∨ ¬ (ok ∧ c.MaySetegid gid) := by
  unfold setegid
  split_ifs with done
  · rw [or_iff_left (not_not.mpr done)]
    exact eq_comm
  · exact iff_of_true rfl (.inr done)

theorem setgroups_keeps : (c.setgroups ok groups).2.groups = c.groups ↔
    c.groups = groups ∨ ¬ (ok ∧ c.capSetgid = .effective) := by
  unfold setgroups
  split_ifs with done
  · rw [or_iff_left (not_not.mpr done)]
    exact eq_comm
  · exact iff_of_true rfl (.inr done)

/-- `seteuid` leaves the group ids and the groups. -/
theorem seteuid_frame : (c.seteuid ok uid).2.egid = c.egid ∧ (c.seteuid ok uid).2.groups = c.groups ∧
    (c.seteuid ok uid).2.rgid = c.rgid ∧ (c.seteuid ok uid).2.sgid = c.sgid := by
  unfold seteuid
  split_ifs <;> exact ⟨rfl, rfl, rfl, rfl⟩

/-- `setegid` leaves all but the effective group id. -/
theorem setegid_frame : (c.setegid ok gid).2.euid = c.euid ∧ (c.setegid ok gid).2.groups = c.groups ∧
    (c.setegid ok gid).2.capSetgid = c.capSetgid := by
  unfold setegid
  split_ifs <;> exact ⟨rfl, rfl, rfl⟩

/-- `setgroups` leaves the ids. -/
theorem setgroups_frame : (c.setgroups ok groups).2.euid = c.euid ∧
    (c.setgroups ok groups).2.egid = c.egid := by
  unfold setgroups
  split_ifs <;> exact ⟨rfl, rfl⟩

theorem setuid_privileged (has : c.capSetuid = .effective) : (c.setuid true uid).2 = c.withUid uid := by
  unfold setuid
  rw [if_neg (by simp), if_pos has]

/-- Without the capability a `setuid` to the effective user id changes nothing. -/
theorem setuid_unprivileged (euid : c.euid = uid) (lacks : c.capSetuid ≠ .effective) :
    (c.setuid ok uid).2 = c := by
  have same : c.withEuid uid = c := by
    rw [withEuid_of_iff (by rw [euid]), ← euid]
  unfold setuid
  rw [if_neg lacks, same]
  split_ifs <;> rfl

end Creds
