import Ecryptfs.CString
import Ecryptfs.Lib.Credentials

/-!
# Dropping and restoring privileges

`pam_sm_authenticate` and `pam_sm_chauthtok` work with the ids of the user whose name PAM gives them.
They save the effective ids and the groups of the process, drop them in three steps, and restore them at
a label that every way out leads to.

The label is also reached before anything has been saved, when PAM has no name, and then zeros are
restored; and what has been dropped comes back only as far as the process may still change its ids
(`pam_restores_iff`).
-/

namespace Ecryptfs

/-- `PAM_SUCCESS` and `PAM_AUTHTOK_RECOVER_ERR`. -/
def pamSuccess : ℤ := 0
def pamAuthtokRecoverErr : ℤ := 21

/-- The ids of a user in the password database. -/
structure PasswdIds where
  uid : ℕ
  gid : ℕ

/-- What the calls come to with which both functions begin and end: the code of `pam_get_user`, the user
that `getpwnam` finds, whether `getgroups` succeeds, and which of the calls that drop and restore the ids
do not fail for a reason other than permission. -/
structure DropCalls where
  getUser : ℤ
  passwd : Option PasswdIds
  getgroups : Bool
  setegid : Bool
  setgroups : Bool
  seteuid : Bool
  restoreUid : Bool
  restoreGid : Bool
  restoreGroups : Bool

namespace DropCalls

/-- The user id to work with; an unknown user leaves it zero. -/
def uid (calls : DropCalls) : ℕ := (calls.passwd.map PasswdIds.uid).getD 0

/-- The group id to work with. -/
def gid (calls : DropCalls) : ℕ := (calls.passwd.map PasswdIds.gid).getD 0

/-- The three steps that drop the ids, with whether all succeed. -/
def drop (calls : DropCalls) (c : Creds) : Bool × Creds :=
  let (done, c) := c.setegid calls.setegid calls.gid
  if done = false then (false, c)
  else
    let (done, c) := c.setgroups calls.setgroups [calls.gid]
    if done = false then (false, c) else c.seteuid calls.seteuid calls.uid

/-- The three calls at the label `out`, with what has been saved. -/
def restore (calls : DropCalls) (oeuid oegid : ℕ) (groups : List ℕ) (c : Creds) : Creds :=
  let c := (c.seteuid calls.restoreUid oeuid).2
  let c := (c.setegid calls.restoreGid oegid).2
  (c.setgroups calls.restoreGroups groups).2

/-- The label `out` after the credentials `c` have been saved. -/
def out (calls : DropCalls) (c d : Creds) : Creds := calls.restore c.euid c.egid c.groups d

end DropCalls

/-- What the calls of `pam_sm_authenticate` come to: `file_exists_dotecryptfs` for the file
`auto-mount`, `ecryptfs_private_is_mounted`, the code of `pam_prompt` or `pam_get_item`, and the
`malloc`. -/
structure AuthenticateCalls extends DropCalls where
  autoMount : ℤ
  isMounted : Bool
  passphrase : ℤ
  allocated : Bool

/-- `pam_sm_authenticate` in the process that calls it: the code, and the credentials it leaves.  The
keys are loaded by a child with credentials of its own. -/
def pamSmAuthenticate (calls : AuthenticateCalls) (c : Creds) : ℤ × Creds :=
  if calls.getUser ≠ pamSuccess then (pamSuccess, calls.restore 0 0 [] c)
  else if calls.getgroups = false then (pamSuccess, c)
  else
    let (dropped, d) := calls.drop c
    if dropped = false then (pamSuccess, calls.out c d)
    else if calls.autoMount = 0 then (pamSuccess, calls.out c d)
    else if calls.isMounted then (pamSuccess, calls.out c d)
    else if calls.passphrase ≠ pamSuccess then (pamSuccess, calls.out c d)
    else if calls.allocated = false then (pamSuccess, calls.out c d)
    else (pamSuccess, calls.out c d)

/-- What the calls of `wrap_passphrase_if_necessary` come to: the `asprintf`, the owner of the file with
the unwrapped passphrase, whether there is a wrapped one, whether `setuid` does not fail for a reason
other than permission, and the code of `ecryptfs_wrap_passphrase_file`. -/
structure WrapCalls where
  filename : Bool
  unwrappedOwner : Option ℕ
  wrappedExists : Bool
  setuid : Bool
  wrapFile : ℤ

/-- A text that is neither null nor empty. -/
def NonemptyText (s : Option CStr) : Prop := s ≠ none ∧ s ≠ some []

instance (s : Option CStr) : Decidable (NonemptyText s) := inferInstanceAs (Decidable (_ ∧ _))

/-- `wrap_passphrase_if_necessary` gets to its `setuid`. -/
def WrapCalls.Wraps (calls : WrapCalls) (username : Option CStr) (uid : ℕ) (passphrase : Option CStr) :
    Prop :=
  calls.unwrappedOwner = some uid ∧ calls.wrappedExists = false ∧ NonemptyText passphrase ∧
    NonemptyText username

instance (calls : WrapCalls) (username : Option CStr) (uid : ℕ) (passphrase : Option CStr) :
    Decidable (calls.Wraps username uid passphrase) := inferInstanceAs (Decidable (_ ∧ _))

/-- `wrap_passphrase_if_necessary`. -/
def wrapPassphraseIfNecessary (calls : WrapCalls) (username : Option CStr) (uid : ℕ)
    (passphrase : Option CStr) (c : Creds) : ℤ × Creds :=
  if calls.filename = false then (-enomem, c)
  else if calls.Wraps username uid passphrase then (calls.wrapFile, (c.setuid calls.setuid uid).2)
  else (0, c)

/-- What the calls of `pam_sm_chauthtok` come to: the name that PAM gives, the flag `PAM_PRELIM_CHECK`,
the codes of `pam_get_item` with the two passphrases, the `asprintf`, the code of
`ecryptfs_read_salt_hex_from_rc`, and the calls of `wrap_passphrase_if_necessary`. -/
structure ChauthtokCalls extends DropCalls where
  username : Option CStr
  prelimCheck : Bool
  oldItem : ℤ
  oldPassphrase : Option CStr
  newItem : ℤ
  newPassphrase : Option CStr
  filename : Bool
  readSalt : ℤ
  wrap : WrapCalls

/-- `pam_sm_chauthtok` in the process that calls it: the code, and the credentials it leaves.  The file
is wrapped anew by a child with credentials of its own. -/
def pamSmChauthtok (calls : ChauthtokCalls) (c : Creds) : ℤ × Creds :=
  if calls.getUser ≠ pamSuccess then (calls.getUser, calls.restore 0 0 [] c)
  else if calls.getgroups = false then (pamSuccess, c)
  else
    let (dropped, d) := calls.drop c
    if dropped = false then (pamSuccess, calls.out c d)
    else if calls.oldItem ≠ pamSuccess then (calls.oldItem, calls.out c d)
    else if calls.prelimCheck then
      if calls.oldPassphrase = none then (pamAuthtokRecoverErr, calls.out c d)
      else (pamSuccess, calls.out c d)
    else if calls.newItem ≠ pamSuccess then (calls.newItem, calls.out c d)
    else if calls.filename = false then (-enomem, calls.out c d)
    else
      let (wrapped, d) := wrapPassphraseIfNecessary calls.wrap calls.username calls.uid
        calls.newPassphrase d
      -- the code of the wrapping is not kept
      if wrapped ≠ 0 then (calls.readSalt, calls.out c d)
      else if calls.oldPassphrase = none ∨ ¬ NonemptyText calls.newPassphrase then
        (pamAuthtokRecoverErr, calls.out c d)
      else (pamSuccess, calls.out c d)

/-- The effective ids and the supplementary groups are the same. -/
structure Restored (c d : Creds) : Prop where
  euid : d.euid = c.euid
  egid : d.egid = c.egid
  groups : d.groups = c.groups

/-! ## The condition -/

/-- Nothing is lost when zeros are restored: each of the three is empty already, or may not be
changed. -/
def NothingToLose (calls : DropCalls) (c : Creds) : Prop :=
  (c.euid = 0 ∨ ¬ (calls.restoreUid ∧ c.MaySeteuid 0)) ∧
    (c.egid = 0 ∨ ¬ (calls.restoreGid ∧ c.MaySetegid 0)) ∧
    (c.groups = [] ∨ ¬ (calls.restoreGroups ∧ c.capSetgid = .effective))

/-- All that is dropped can be taken back, according to how many of the three steps succeed. -/
def ComesBack (calls : DropCalls) (c : Creds) : Prop :=
  if ¬ (calls.setegid ∧ c.MaySetegid calls.gid) then True
  else if ¬ (calls.setgroups ∧ c.capSetgid = .effective) then
    c.egid = calls.gid ∨
      calls.restoreGid ∧ (c.capSetgid = .effective ∨ c.egid = c.rgid ∨ c.egid = c.sgid)
  else if ¬ (calls.seteuid ∧ c.MaySeteuid calls.uid) then
    (c.egid = calls.gid ∨ calls.restoreGid) ∧ (c.groups = [calls.gid] ∨ calls.restoreGroups)
  else
    (c.euid = calls.uid ∨
      calls.restoreUid ∧ (c.KeepsSetuid calls.uid ∨ c.euid = c.ruid ∨ c.euid = c.suid)) ∧
    (c.egid = calls.gid ∨
      calls.restoreGid ∧ (c.KeepsSetgid calls.uid ∨ c.egid = c.rgid ∨ c.egid = c.sgid)) ∧
    (c.groups = [calls.gid] ∨ calls.restoreGroups ∧ c.KeepsSetgid calls.uid)

/-- PAM has a name and what is dropped comes back; or there is nothing to lose; or nothing is done. -/
def Restorable (calls : DropCalls) (c : Creds) : Prop :=
  if calls.getUser ≠ pamSuccess then NothingToLose calls c
  else calls.getgroups = true → ComesBack calls c

/-- `pam_sm_chauthtok` gets to the `setuid` of `wrap_passphrase_if_necessary` after the three steps. -/
def ChauthtokCalls.Wraps (calls : ChauthtokCalls) : Prop :=
  (calls.oldItem = pamSuccess ∧ calls.prelimCheck = false ∧ calls.newItem = pamSuccess ∧
    calls.filename = true) ∧
    calls.wrap.filename = true ∧ calls.wrap.Wraps calls.username calls.uid calls.newPassphrase

/-- `pam_sm_chauthtok` takes the three steps and gets to the `setuid`, which does not fail for a reason
other than permission. -/
def ChauthtokCalls.SetsUid (calls : ChauthtokCalls) (c : Creds) : Prop :=
  (calls.getUser = pamSuccess ∧ calls.getgroups = true) ∧
    ((calls.setegid ∧ c.MaySetegid calls.gid) ∧ (calls.setgroups ∧ c.capSetgid = .effective) ∧
      calls.seteuid ∧ c.MaySeteuid calls.uid) ∧
    calls.Wraps ∧ calls.wrap.setuid = true

/-- A `setuid` to the user takes the last zero away from the ids of a process that has `CAP_SETUID`
although its effective user id is not zero. -/
def LosesRoot (calls : DropCalls) (c : Creds) : Prop :=
  calls.uid ≠ 0 ∧ c.euid ≠ 0 ∧ (c.ruid = 0 ∨ c.suid = 0) ∧ c.capSetuid = .effective ∧
    c.keepCaps = false ∧ c.noSetuidFixup = false

/-- There is nothing that only privileges could restore. -/
def NeedsNoRoot (calls : DropCalls) (c : Creds) : Prop :=
  c.euid = calls.uid ∧
    (c.egid = calls.gid ∨ calls.restoreGid ∧ (c.egid = c.rgid ∨ c.egid = c.sgid)) ∧
    c.groups = [calls.gid]

/-! ## What the label restores -/

variable {calls : DropCalls} {c d : Creds}

/-- The label restores the credentials `c` if each of the three is there already or may be set. -/
theorem restored_out_iff : Restored c (calls.out c d) ↔
    (d.euid = c.euid ∨ calls.restoreUid ∧ d.MaySeteuid c.euid) ∧
      (d.egid = c.egid ∨
        calls.restoreGid ∧ (d.seteuid calls.restoreUid c.euid).2.MaySetegid c.egid) ∧
      (d.groups = c.groups ∨
        calls.restoreGroups ∧ (d.seteuid calls.restoreUid c.euid).2.capSetgid = .effective) := by
  have euid : (calls.out c d).euid = (d.seteuid calls.restoreUid c.euid).2.euid :=
    Creds.setgroups_frame.1.trans Creds.setegid_frame.1
  have egid : (calls.out c d).egid =
      ((d.seteuid calls.restoreUid c.euid).2.setegid calls.restoreGid c.egid).2.egid :=
    Creds.setgroups_frame.2
  have groups : (calls.out c d).groups = c.groups ↔ d.groups = c.groups ∨
      calls.restoreGroups ∧ (d.seteuid calls.restoreUid c.euid).2.capSetgid = .effective := by
    unfold DropCalls.out DropCalls.restore
    rw [Creds.setgroups_groups, Creds.setegid_frame.2.1, Creds.setegid_frame.2.2, Creds.seteuid_frame.2.1]
  rw [← Creds.seteuid_euid, ← euid, ← groups, ← Creds.seteuid_frame.1, ← Creds.setegid_egid, ← egid]
  exact ⟨fun restored => ⟨restored.euid, restored.egid, restored.groups⟩,
    fun ⟨euid, egid, groups⟩ => ⟨euid, egid, groups⟩⟩

/-- The label restores the group ids of a process that still has its effective user id. -/
theorem restored_out_iff_of_euid (euid : d.euid = c.euid) : Restored c (calls.out c d) ↔
    (d.egid = c.egid ∨ calls.restoreGid ∧ d.MaySetegid c.egid) ∧
      (d.groups = c.groups ∨ calls.restoreGroups ∧ d.capSetgid = .effective) := by
  rw [restored_out_iff, Creds.seteuid_self euid]
  exact and_iff_right (.inl euid)

/-- The label restores zeros. -/
theorem restored_zeros_iff : Restored c (calls.restore 0 0 [] c) ↔ NothingToLose calls c := by
  have euid : (calls.restore 0 0 [] c).euid = (c.seteuid calls.restoreUid 0).2.euid :=
    Creds.setgroups_frame.1.trans Creds.setegid_frame.1
  have groups : ((c.setegid calls.restoreGid 0).2.setgroups calls.restoreGroups []).2.groups = c.groups ↔
      c.groups = [] ∨ ¬ (calls.restoreGroups ∧ c.capSetgid = .effective) := by
    rw [← (@Creds.setegid_frame c calls.restoreGid 0).2.1, ← (@Creds.setegid_frame c calls.restoreGid 0).2.2]
    exact Creds.setgroups_keeps
  rw [NothingToLose, ← Creds.seteuid_keeps, ← Creds.setegid_keeps, ← groups]
  -- once the effective user id is unchanged, so is the rest
  constructor
  · rintro ⟨isEuid, isEgid, isGroups⟩
    have same := euid.symm.trans isEuid
    have isEgid := (Creds.setgroups_frame.2).symm.trans isEgid
    unfold DropCalls.restore at isGroups
    rw [Creds.seteuid_unchanged same] at isEgid isGroups
    exact ⟨same, isEgid, isGroups⟩
  · rintro ⟨same, isEgid, isGroups⟩
    refine ⟨euid.trans same, Creds.setgroups_frame.2.trans ?_, ?_⟩
    · rw [Creds.seteuid_unchanged same]
      exact isEgid
    · unfold DropCalls.restore
      rw [Creds.seteuid_unchanged same]
      exact isGroups

/-! ## What is dropped -/

/-- The process has the user's ids as its effective ones and as its only group; all else that decides on
the way back is as after the three steps, the real and saved user ids apart. -/
structure Dropped (calls : DropCalls) (c d : Creds) : Prop where
  euid : d.euid = calls.uid
  egid : d.egid = calls.gid
  groups : d.groups = [calls.gid]
  rgid : d.rgid = c.rgid
  sgid : d.sgid = c.sgid
  noSetuidFixup : d.noSetuidFixup = c.noSetuidFixup
  capSetgid : d.capSetgid = (c.withEuid calls.uid).capSetgid
  effective : c.capSetgid = .effective
  root : d.MaySeteuid c.euid → c.noSetuidFixup = false → c.euid = 0 → calls.uid ≠ 0 →
    c.ruid = 0 ∨ c.suid = 0

/-- What has been dropped comes back if the user id does and then the capability for the groups. -/
theorem Dropped.restored_iff (dropped : Dropped calls c d) {way : Prop}
    (may : d.MaySeteuid c.euid ↔ c.euid = calls.uid ∨ way) : Restored c (calls.out c d) ↔
      (c.euid = calls.uid ∨ calls.restoreUid ∧ way) ∧
      (c.egid = calls.gid ∨
        calls.restoreGid ∧ (c.KeepsSetgid calls.uid ∨ c.egid = c.rgid ∨ c.egid = c.sgid)) ∧
      (c.groups = [calls.gid] ∨ calls.restoreGroups ∧ c.KeepsSetgid calls.uid) := by
  have comesBack : (d.euid = c.euid ∨ calls.restoreUid ∧ d.MaySeteuid c.euid) ↔
      (c.euid = calls.uid ∨ calls.restoreUid ∧ way) := by
    rw [may, dropped.euid, eq_comm]
    tauto
  rw [restored_out_iff, comesBack]
  refine and_congr_right fun isBack => ?_
  have cap : (d.seteuid calls.restoreUid c.euid).2.capSetgid = .effective ↔ c.KeepsSetgid calls.uid := by
    by_cases same : c.euid = calls.uid
    · rw [Creds.seteuid_self (dropped.euid.trans same.symm), dropped.capSetgid,
        Creds.withEuid_of_iff (same ▸ Iff.rfl)]
      refine iff_of_true dropped.effective (.inr ?_)
      rw [same]
      exact em _
    · obtain ⟨ok, onWay⟩ := isBack.resolve_left same
      have permitted := may.mpr (.inr onWay)
      rw [Creds.seteuid, if_pos ⟨ok, permitted⟩]
      exact Creds.capSetgid_back dropped.effective dropped.noSetuidFixup dropped.euid dropped.capSetgid
        (dropped.root permitted)
  have frame := @Creds.seteuid_frame d c.euid calls.restoreUid
  rw [Creds.MaySetegid, cap, frame.2.2.1, frame.2.2.2, frame.1, dropped.egid, dropped.groups, dropped.rgid,
    dropped.sgid]
  rw [@eq_comm _ calls.gid, @eq_comm _ [calls.gid]]
  refine and_congr_left fun _ => or_congr_right' fun other => and_congr_right fun _ => ?_
  simp only [other, false_or]

/-- The credentials after the three steps. -/
def DropCalls.dropped (calls : DropCalls) (c : Creds) : Creds :=
  ({ c with egid := calls.gid, groups := [calls.gid] } : Creds).withEuid calls.uid

theorem dropped_of_drop (effective : c.capSetgid = .effective) : Dropped calls c (calls.dropped c) where
  euid := rfl
  egid := rfl
  groups := rfl
  rgid := rfl
  sgid := rfl
  noSetuidFixup := rfl
  capSetgid := rfl
  effective := effective
  root permitted on root other := Creds.root_of_maySeteuid on root other permitted

theorem capSetuid_dropped : (calls.dropped c).capSetuid = .effective ↔ c.KeepsSetuid calls.uid :=
  Creds.capSetuid_withEuid

theorem maySeteuid_dropped : (calls.dropped c).MaySeteuid c.euid ↔
    c.euid = calls.uid ∨ (c.KeepsSetuid calls.uid ∨ c.euid = c.ruid ∨ c.euid = c.suid) := by
  unfold Creds.MaySeteuid
  rw [capSetuid_dropped]
  show (_ ∨ c.euid = c.ruid ∨ c.euid = calls.uid ∨ c.euid = c.suid) ↔ _
  tauto

/-- The steps that drop the ids, in terms of the credentials before. -/
theorem drop_eq (calls : DropCalls) (c : Creds) : calls.drop c =
    if ¬ (calls.setegid ∧ c.MaySetegid calls.gid) then (false, c)
    else if ¬ (calls.setgroups ∧ c.capSetgid = .effective) then (false, { c with egid := calls.gid })
    else if ¬ (calls.seteuid ∧ c.MaySeteuid calls.uid) then
      (false, { c with egid := calls.gid, groups := [calls.gid] })
    else (true, calls.dropped c) := by
  unfold DropCalls.drop DropCalls.dropped Creds.setegid Creds.setgroups Creds.seteuid
  by_cases gidSet : calls.setegid ∧ c.MaySetegid calls.gid
  · by_cases groupsSet : calls.setgroups ∧ c.capSetgid = .effective
    · by_cases uidSet : calls.seteuid ∧ c.MaySeteuid calls.uid
      · simp only [gidSet, groupsSet, uidSet, not_true_eq_false, if_false, if_true, and_self,
          Bool.true_eq_false]
        exact if_pos ⟨trivial, uidSet.2⟩
      · simp only [gidSet, groupsSet, uidSet, not_true_eq_false, not_false_eq_true, if_false, if_true,
          and_self, Bool.true_eq_false]
        exact if_neg uidSet
    · simp only [gidSet, groupsSet, not_true_eq_false, not_false_eq_true, if_false, if_true, and_self,
        Bool.true_eq_false]
  · simp only [gidSet, not_false_eq_true, if_false, if_true]

/-- What the ids come back to when the credentials are as the steps leave them. -/
theorem restored_drop_iff : Restored c (calls.out c (calls.drop c).2) ↔ ComesBack calls c := by
  rw [drop_eq, ComesBack]
  split_ifs with gidSet groupsSet uidSet
  · exact (dropped_of_drop groupsSet.2).restored_iff maySeteuid_dropped
  · -- the effective user id has not been dropped, and the capability is there
    refine (restored_out_iff_of_euid (by rfl)).trans ?_
    have permitted : ({ c with egid := calls.gid, groups := [calls.gid] } : Creds).MaySetegid c.egid :=
      .inl groupsSet.2
    exact and_congr (or_congr eq_comm (and_iff_left permitted)) (or_congr eq_comm (and_iff_left groupsSet.2))
  · refine (restored_out_iff_of_euid (by rfl)).trans ?_
    show (calls.gid = c.egid ∨ calls.restoreGid ∧
      (c.capSetgid = .effective ∨ c.egid = c.rgid ∨ c.egid = calls.gid ∨ c.egid = c.sgid)) ∧
        (c.groups = c.groups ∨ _) ↔ _
    rw [and_iff_left (.inl rfl), @eq_comm _ calls.gid]
    refine or_congr_right' fun other => and_congr_right fun _ => ?_
    simp only [other, false_or]
  · -- nothing has been changed
    rw [restored_out_iff_of_euid rfl]
    exact iff_of_true ⟨.inl rfl, .inl rfl⟩ trivial

/-! ## The `setuid` of the wrapping -/

/-- Without capabilities, and with the user's id for all three, only what is there comes back. -/
theorem Dropped.restored_lost (dropped : Dropped calls c d)
    (lost : ∀ cap, d.capChange { d with ruid := calls.uid, euid := calls.uid, suid := calls.uid } cap =
      .absent) :
    Restored c (calls.out c (d.withUid calls.uid)) ↔ NeedsNoRoot calls c := by
  have isEuid : ((d.withUid calls.uid).euid = c.euid ∨
      calls.restoreUid ∧ (d.withUid calls.uid).MaySeteuid c.euid) ↔ c.euid = calls.uid := by
    show (calls.uid = c.euid ∨ calls.restoreUid ∧ (d.capChange _ d.capSetuid = .effective ∨
      c.euid = calls.uid ∨ c.euid = calls.uid ∨ c.euid = calls.uid)) ↔ _
    rw [lost, eq_comm]
    simp only [reduceCtorEq, false_or, or_self, or_iff_left_iff_imp]
    exact And.right
  rw [restored_out_iff, isEuid]
  refine and_congr_right fun same => ?_
  have gone : (d.withUid calls.uid).capSetgid ≠ .effective := by
    show d.capChange _ d.capSetgid ≠ .effective
    rw [lost]
    decide
  have egid : (d.withUid calls.uid).egid = calls.gid := dropped.egid
  have groups : (d.withUid calls.uid).groups = [calls.gid] := dropped.groups
  have rgid : (d.withUid calls.uid).rgid = c.rgid := dropped.rgid
  have sgid : (d.withUid calls.uid).sgid = c.sgid := dropped.sgid
  rw [Creds.seteuid_self same.symm, Creds.MaySetegid, egid, groups, rgid, sgid, @eq_comm _ calls.gid,
    @eq_comm _ [calls.gid]]
  simp only [gone, false_or, and_false, or_false]
  refine and_congr_left fun _ => or_congr_right' fun notOwn => and_congr_right fun _ => ?_
  simp only [notOwn, false_or]

/-- What needs no privileges comes back anyway. -/
theorem Dropped.restored_of_needsNoRoot (dropped : Dropped calls c d) (needs : NeedsNoRoot calls c) :
    Restored c (calls.out c d) := by
  obtain ⟨same, isEgid, isGroups⟩ := needs
  have may : d.MaySeteuid c.euid ↔ c.euid = calls.uid ∨ False := by
    rw [or_false]
    exact iff_of_true (.inr (.inr (.inl (same.trans dropped.euid.symm)))) same
  exact (dropped.restored_iff may).mpr ⟨.inl same, isEgid.imp_right fun way => ⟨way.1, .inr way.2⟩,
    .inl isGroups⟩

/-- With the capabilities kept, as much comes back as without the `setuid`. -/
theorem Dropped.restored_kept (dropped : Dropped calls c d) (isEffective : d.capSetuid = .effective)
    (kept : ∀ cap, d.capChange { d with ruid := calls.uid, euid := calls.uid, suid := calls.uid } cap = cap) :
    Restored c (calls.out c (d.withUid calls.uid)) ↔ Restored c (calls.out c d) := by
  have dropped' : Dropped calls c (d.withUid calls.uid) :=
    { euid := rfl
      egid := dropped.egid
      groups := dropped.groups
      rgid := dropped.rgid
      sgid := dropped.sgid
      noSetuidFixup := dropped.noSetuidFixup
      capSetgid := (kept _).trans dropped.capSetgid
      effective := dropped.effective
      root := fun _ => dropped.root (.inl isEffective) }
  have may : d.MaySeteuid c.euid ↔ c.euid = calls.uid ∨ True :=
    iff_of_true (.inl isEffective) (.inr trivial)
  have may' : (d.withUid calls.uid).MaySeteuid c.euid ↔ c.euid = calls.uid ∨ True :=
    iff_of_true (.inl ((kept _).trans isEffective)) (.inr trivial)
  rw [dropped'.restored_iff may', dropped.restored_iff may]

/-- A process that has `CAP_SETUID` and does not lose it has a reason to keep it. -/
theorem keeps_of_not_losesRoot (keepsUid : c.KeepsSetuid calls.uid) (safe : ¬ LosesRoot calls c) :
    c.noSetuidFixup = true ∨ c.keepCaps = true ∨ calls.uid = 0 ∨ c.ruid ≠ 0 ∧ c.suid ≠ 0 := by
  unfold Creds.KeepsSetuid at keepsUid
  by_contra none_
  simp only [not_or, Bool.not_eq_true] at none_
  obtain ⟨on, drops, other, root⟩ := none_
  split_ifs at keepsUid with same
  · have notRoot : c.euid ≠ 0 := fun zero => other ((same.resolve_left (by simp [on])).mp zero)
    have isRoot : c.ruid = 0 ∨ c.suid = 0 := by
      by_contra neither
      exact root (not_or.mp neither)
    exact safe ⟨other, notRoot, isRoot, keepsUid, drops, on⟩
  · exact same (.inr (iff_of_false keepsUid.1 other))

/-- What the `setuid` changes for the way back. -/
theorem restored_setuid_iff (effective : c.capSetgid = .effective) (ok : Bool) :
    Restored c (calls.out c ((calls.dropped c).setuid ok calls.uid).2) ↔
      Restored c (calls.out c (calls.dropped c)) ∧
        (ok = true → LosesRoot calls c → NeedsNoRoot calls c) := by
  have dropped := @dropped_of_drop calls c effective
  rcases ok with _ | _
  · exact (and_iff_left fun isOk => absurd isOk Bool.false_ne_true).symm
  by_cases isEffective : (calls.dropped c).capSetuid = .effective
  · rw [Creds.setuid_privileged isEffective]
    by_cases loses : LosesRoot calls c
    · obtain ⟨other, -, root, -, drops, on⟩ := id loses
      rw [dropped.restored_lost (Creds.capChange_lost rfl other root drops on)]
      exact ⟨fun needs => ⟨dropped.restored_of_needsNoRoot needs, fun _ _ => needs⟩,
        fun both => both.2 rfl loses⟩
    · have keeps := keeps_of_not_losesRoot (capSetuid_dropped.mp isEffective) loses
      rw [dropped.restored_kept isEffective (Creds.capChange_kept rfl keeps)]
      exact (and_iff_left fun _ isLoss => absurd isLoss loses).symm
  · rw [Creds.setuid_unprivileged dropped.euid isEffective]
    refine (and_iff_left fun _ loses => absurd (capSetuid_dropped.mpr ?_) isEffective).symm
    obtain ⟨other, notRoot, -, has, -⟩ := loses
    rw [Creds.KeepsSetuid, if_pos (.inr (iff_of_false notRoot other))]
    exact has

/-! ## Both functions -/

/-- All ways through `pam_sm_authenticate` after the saving lead to the label. -/
theorem pamSmAuthenticate_creds (calls : AuthenticateCalls) (c : Creds) :
    (pamSmAuthenticate calls c).2 =
      if calls.getUser ≠ pamSuccess then calls.restore 0 0 [] c
      else if calls.getgroups = false then c
      else calls.out c (calls.drop c).2 := by
  unfold pamSmAuthenticate
  rcases calls.drop c with ⟨dropped, d⟩
  dsimp only
  split_ifs <;> rfl

/-- The credentials after `wrap_passphrase_if_necessary`. -/
theorem wrapPassphraseIfNecessary_creds (calls : WrapCalls) (username : Option CStr) (uid : ℕ)
    (passphrase : Option CStr) (c : Creds) :
    (wrapPassphraseIfNecessary calls username uid passphrase c).2 =
      if calls.filename = true ∧ calls.Wraps username uid passphrase then (c.setuid calls.setuid uid).2
      else c := by
  unfold wrapPassphraseIfNecessary
  by_cases named : calls.filename = true
  · rw [if_neg (by simp [named])]
    by_cases wraps : calls.Wraps username uid passphrase
    · rw [if_pos wraps, if_pos ⟨named, wraps⟩]
    · rw [if_neg wraps, if_neg fun both => wraps both.2]
  · rw [if_pos (Bool.eq_false_iff.mpr named), if_neg fun both => named both.1]

/-- So do all ways through `pam_sm_chauthtok`, some of them with the `setuid`. -/
theorem pamSmChauthtok_creds (calls : ChauthtokCalls) (c : Creds) (named : calls.getUser = pamSuccess)
    (listed : calls.getgroups = true) :
    ((calls.drop c).1 = true ∧ calls.Wraps ∧ (pamSmChauthtok calls c).2 =
      calls.out c ((calls.drop c).2.setuid calls.wrap.setuid calls.uid).2) ∨
    (¬ ((calls.drop c).1 = true ∧ calls.Wraps) ∧
      (pamSmChauthtok calls c).2 = calls.out c (calls.drop c).2) := by
  unfold pamSmChauthtok
  rcases calls.drop c with ⟨dropped, d⟩
  rw [if_neg (not_not.mpr named), if_neg (by simp [listed])]
  dsimp only
  by_cases failed : dropped = false
  · rw [if_pos failed]
    exact .inr ⟨fun both => absurd both.1 (by simp [failed]), rfl⟩
  rw [if_neg failed]
  by_cases noOld : calls.oldItem ≠ pamSuccess
  · rw [if_pos noOld]
    exact .inr ⟨fun both => noOld both.2.1.1, rfl⟩
  rw [if_neg noOld]
  by_cases prelim : calls.prelimCheck = true
  · rw [if_pos prelim]
    refine .inr ⟨fun both => absurd both.2.1.2.1 (by simp [prelim]), ?_⟩
    split_ifs <;> rfl
  rw [if_neg prelim]
  by_cases noNew : calls.newItem ≠ pamSuccess
  · rw [if_pos noNew]
    exact .inr ⟨fun both => noNew both.2.1.2.2.1, rfl⟩
  rw [if_neg noNew]
  by_cases unnamed : calls.filename = false
  · rw [if_pos unnamed]
    exact .inr ⟨fun both => absurd both.2.1.2.2.2 (by simp [unnamed]), rfl⟩
  rw [if_neg unnamed]
  -- the code of the wrapping decides only which code is returned
  have label : ∀ (code : ℤ) (e : Creds), (if code ≠ 0 then (calls.readSalt, calls.out c e)
      else if calls.oldPassphrase = none ∨ ¬ NonemptyText calls.newPassphrase then
        (pamAuthtokRecoverErr, calls.out c e)
      else (pamSuccess, calls.out c e)).2 = calls.out c e := by
    intro code e
    split_ifs <;> rfl
  rw [label, wrapPassphraseIfNecessary_creds]
  have reached : calls.oldItem = pamSuccess ∧ calls.prelimCheck = false ∧ calls.newItem = pamSuccess ∧
      calls.filename = true :=
    ⟨not_not.mp noOld, Bool.eq_false_iff.mpr prelim, not_not.mp noNew, Bool.not_eq_false _ |>.mp unnamed⟩
  by_cases wraps : calls.wrap.filename = true ∧
      calls.wrap.Wraps calls.username calls.uid calls.newPassphrase
  · rw [if_pos wraps]
    exact .inl ⟨Bool.not_eq_false _ |>.mp failed, ⟨reached, wraps⟩, rfl⟩
  · rw [if_neg wraps]
    exact .inr ⟨fun both => wraps both.2.2, rfl⟩

/-- The three steps have succeeded. -/
theorem drop_fst : (calls.drop c).1 = true ↔ (calls.setegid ∧ c.MaySetegid calls.gid) ∧
    (calls.setgroups ∧ c.capSetgid = .effective) ∧ calls.seteuid ∧ c.MaySeteuid calls.uid := by
  rw [drop_eq]
  split_ifs with gidSet groupsSet uidSet
  · exact iff_of_true rfl ⟨gidSet, groupsSet, uidSet⟩
  · exact iff_of_false id fun all => uidSet all.2.2
  · exact iff_of_false id fun all => groupsSet all.2.1
  · exact iff_of_false id fun all => gidSet all.1

/-- **The privileges come back.**  The credentials after `pam_sm_authenticate` and `pam_sm_chauthtok` are
those before exactly when PAM has a name and what is dropped can be taken back, or there is nothing to
lose; and the `setuid` that `pam_sm_chauthtok` may come to must not take privileges that are needed. -/
theorem pam_restores_iff (c : Creds) :
    (∀ calls : AuthenticateCalls,
      Restored c (pamSmAuthenticate calls c).2 ↔ Restorable calls.toDropCalls c) ∧
    ∀ calls : ChauthtokCalls, Restored c (pamSmChauthtok calls c).2 ↔ Restorable calls.toDropCalls c ∧
      (calls.SetsUid c → LosesRoot calls.toDropCalls c → NeedsNoRoot calls.toDropCalls c) := by
  have unchanged : Restored c c := ⟨rfl, rfl, rfl⟩
  constructor
  · intro calls
    rw [pamSmAuthenticate_creds, Restorable]
    split_ifs with named listed
    · exact restored_zeros_iff
    · simp [unchanged, listed]
    · rw [restored_drop_iff]
      simp [listed]
  · intro calls
    by_cases named : calls.getUser = pamSuccess
    · rcases listed : calls.getgroups with _ | _
      · have result : (pamSmChauthtok calls c).2 = c := by
          unfold pamSmChauthtok
          rw [if_neg (not_not.mpr named), if_pos listed]
        rw [result, Restorable, if_neg (not_not.mpr named)]
        refine iff_of_true unchanged ⟨fun isListed => absurd (listed.symm.trans isListed) (by simp), ?_⟩
        exact fun sets => absurd (listed.symm.trans sets.1.2) (by simp)
      · have restorable : Restorable calls.toDropCalls c ↔ ComesBack calls.toDropCalls c := by
          rw [Restorable, if_neg (not_not.mpr named)]
          simp [listed]
        rw [restorable, ← restored_drop_iff]
        rcases pamSmChauthtok_creds calls c named listed with ⟨done, wraps, result⟩ | ⟨other, result⟩
        · have steps := drop_fst.mp done
          have isDropped : (calls.drop c).2 = calls.dropped c := by
            rw [drop_eq, if_neg (not_not.mpr steps.1), if_neg (not_not.mpr steps.2.1),
              if_neg (not_not.mpr steps.2.2)]
          rw [result, isDropped, restored_setuid_iff steps.2.1.2]
          have sets : calls.SetsUid c ↔ calls.wrap.setuid = true :=
            ⟨fun sets => sets.2.2.2, fun ok => ⟨⟨named, listed⟩, steps, wraps, ok⟩⟩
          rw [sets]
        · rw [result]
          refine (and_iff_left fun sets => absurd ⟨drop_fst.mpr sets.2.1, sets.2.2.1⟩ other).symm
    · have result : (pamSmChauthtok calls c).2 = calls.restore 0 0 [] c := by
        unfold pamSmChauthtok
        rw [if_pos named]
      rw [result, Restorable, if_pos named, restored_zeros_iff]
      exact (and_iff_left fun sets => absurd sets.1.1 named).symm

/-- A process of root with two groups. -/
def rootCreds : Creds where
  ruid := 0
  euid := 0
  suid := 0
  rgid := 0
  egid := 0
  sgid := 0
  groups := [4, 24]
  capSetuid := .effective
  capSetgid := .effective
  keepCaps := false
  noSetuidFixup := false

/-- `pam_get_user` fails, and nothing else does. -/
def noName : DropCalls where
  getUser := 4
  passwd := none
  getgroups := true
  setegid := true
  setgroups := true
  seteuid := true
  restoreUid := true
  restoreGid := true
  restoreGroups := true

/-- Without a name the process loses its groups. -/
theorem privileges_lost :
    (pamSmAuthenticate ⟨noName, 1, false, 0, true⟩ rootCreds).2.groups = [] ∧
      ¬ Restored rootCreds (pamSmAuthenticate ⟨noName, 1, false, 0, true⟩ rootCreds).2 ∧
      ¬ Restored rootCreds (pamSmChauthtok
        ⟨noName, none, false, 0, none, 0, none, true, 0, ⟨true, none, true, true, 0⟩⟩ rootCreds).2 := by
  refine ⟨by decide, fun restored => ?_, fun restored => ?_⟩
  · exact absurd restored.groups (by decide)
  · exact absurd restored.groups (by decide)

end Ecryptfs
