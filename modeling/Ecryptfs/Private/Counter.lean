import Ecryptfs.CString

/-!
# The mount counter of the private directory

`mount.ecryptfs_private` counts the sessions that use a private directory in a text file: a mount
run adds one to the number in the file, an unmount run subtracts one and refuses to unmount while the
result is positive.  The file is overwritten in place and never truncated.

A mount run adds its session before it knows whether it can mount.  If it then fails, nothing takes
the session away again, and a later unmount run is refused on behalf of a session that was never
opened.
-/

namespace Ecryptfs

/-! ## The counter file -/

/-- The value of an `int` after the conversion of a number that may not fit. -/
def toInt (n : ℤ) : ℤ := (n + 2 ^ 31) % 2 ^ 32 - 2 ^ 31

/-- `fscanf` with the format `%d`. -/
def scanInt (text : CStr) : Option ℤ := (strtol text).map toInt

/-- The number in the counter file, which defaults to zero. -/
def counterValue (text : CStr) : ℤ := (scanInt text).getD 0

/-- The new count and the new text of the counter file; the writes are taken to be complete. -/
def bumpCounter (text : CStr) (delta : ℤ) : ℤ × CStr :=
  let count := toInt (counterValue text + delta)
  let count := if count < 0 then 0 else count
  let written := decimalText count.toNat ++ [10]
  (count, written ++ text.drop written.length)

def maxint : ℤ := 2 ^ 31 - 1

def increment (text : CStr) : ℤ × CStr := bumpCounter text 1

def decrement (text : CStr) : ℤ × CStr := bumpCounter text (-1)

def zero (text : CStr) : ℤ × CStr := bumpCounter text (-maxint + 1)

theorem toInt_of_fits {n : ℤ} (lower : -2 ^ 31 ≤ n) (upper : n < 2 ^ 31) : toInt n = n := by
  unfold toInt
  omega

theorem toInt_lt (n : ℤ) : toInt n < 2 ^ 31 := by
  unfold toInt
  omega

/-- The count is never negative. -/
theorem bumpCounter_count (text : CStr) (delta : ℤ) :
    (bumpCounter text delta).1 = max 0 (toInt (counterValue text + delta)) := by
  simp only [bumpCounter]
  split <;> omega

theorem bumpCounter_bounds (text : CStr) (delta : ℤ) :
    0 ≤ (bumpCounter text delta).1 ∧ (bumpCounter text delta).1 < 2 ^ 31 := by
  have fits := toInt_lt (counterValue text + delta)
  rw [bumpCounter_count]
  omega

/-- Whatever is left of the old text behind it, the number written is the one read next. -/
theorem counterValue_bumpCounter (text : CStr) (delta : ℤ) :
    counterValue (bumpCounter text delta).2 = (bumpCounter text delta).1 := by
  obtain ⟨nonneg, fits⟩ := bumpCounter_bounds text delta
  generalize written : (bumpCounter text delta).1 = count at nonneg fits ⊢
  obtain ⟨rest, new⟩ : ∃ rest, (bumpCounter text delta).2 = decimalText count.toNat ++ 10 :: rest := by
    subst written
    exact ⟨_, List.append_assoc _ _ _⟩
  have read : strtol (bumpCounter text delta).2 = some (count.toNat : ℤ) := by
    rw [new]
    exact strtol_decimalText (by omega) (by decide) rest
  rw [counterValue, scanInt, read, Option.map_some, Option.getD_some, Int.toNat_of_nonneg nonneg,
    toInt_of_fits (by omega) fits]

/-- An increment never leaves the number as it was. -/
theorem increment_changes (text : CStr) : (increment text).1 ≠ counterValue text := by
  rw [increment, bumpCounter_count, toInt]
  omega

/-! ## A run of the program -/

/-- What the rest of the system answers to one run: whether each of its calls succeeds, and whether
the directory is mounted already. -/
structure PrivateSystem where
  seteuid : Bool := true
  getpwuid : Bool := true
  fetchPrivateMnt : Bool := true
  /-- The configuration of an alias can be read and asks for no mount options. -/
  readConfig : CStr → Bool := fun _ => true
  lockCounter : Bool := true
  checkUsername : Bool := true
  fetchSig : Bool := true
  buildOptions : Bool := true
  checkOwnershipMnt : Bool := true
  isMounted : Bool := false
  setreuid : Bool := true
  setregid : Bool := true
  mount : Bool := true
  updateMtab : Bool := true
  execl : Bool := true

/-- How a run ends: with status zero, with status one, with status one and the message that sessions
are still open, or by becoming `umount`. -/
inductive PrivateExit where
  | success
  | failure
  | sessionsOpen
  | umount
  deriving DecidableEq, Repr

/-- The alias that the arguments select; more than one argument is refused. -/
def aliasOf : List CStr → Option CStr
  | [] => some "Private"
  | [name] => some name
  | _ => none

/-- The directories of the alias are found. -/
def findDirectories (sys : PrivateSystem) : List CStr → Bool
  | [] => sys.fetchPrivateMnt
  | [name] => sys.readConfig name
  | _ => false

/-- Mounting is assumed unless the program was called under a name with `umount` in it. -/
def isMounting (argv0 : CStr) : Bool := !strstr argv0 "umount"

/-- Unmounting is forced by a first argument that begins with `-f`. -/
def isForced (args : List CStr) : Bool := (args.head?.map (lit "-f").isPrefixOf).getD false

/-- Everything that is checked before the counter is touched. -/
def passesChecks (sys : PrivateSystem) (argv0 : CStr) (args : List CStr) : Bool :=
  sys.seteuid && sys.getpwuid && findDirectories sys args &&
    !((aliasOf args).map (strstr · "..")).getD true && sys.lockCounter && sys.checkUsername &&
    (sys.fetchSig || !isMounting argv0) && sys.buildOptions && sys.checkOwnershipMnt

/-- The mounting half of the program, from the counter on. -/
def mountCounted (sys : PrivateSystem) (counter : CStr) : PrivateExit × CStr :=
  let bumped := (increment counter).2
  if sys.isMounted then (.success, bumped)
  else if !sys.setreuid then (.failure, bumped)
  else if !sys.setregid then (.failure, bumped)
  else if sys.mount then if sys.updateMtab then (.success, bumped) else (.failure, bumped)
  else (.failure, bumped)

/-- The unmounting half, from the counter on; the removal of the keys has no say in it. -/
def umountCounted (sys : PrivateSystem) (force : Bool) (counter : CStr) : PrivateExit × CStr :=
  if force then umountNow (zero counter).2
  else if (decrement counter).1 > 0 then (.sessionsOpen, (decrement counter).2)
  else umountNow (decrement counter).2
where
  umountNow (counter : CStr) : PrivateExit × CStr :=
    if !sys.isMounted then (.failure, counter)
    else if sys.execl then (.umount, counter)
    else (.failure, counter)

/-- The `main` of both programs, on the text of the counter file. -/
def privateMain (sys : PrivateSystem) (argv0 : CStr) (args : List CStr) (counter : CStr) :
    PrivateExit × CStr :=
  if !passesChecks sys argv0 args then (.failure, counter)
  else if isMounting argv0 then mountCounted sys counter
  else umountCounted sys (isForced args) counter

/-! ## Sessions -/

/-- One run of the program for a user. -/
structure PrivateRun where
  sys : PrivateSystem
  argv0 : CStr
  args : List CStr

/-- The counter file, and the number of successful mount runs that no unmount run has matched. -/
structure Ledger where
  counter : CStr
  unmatched : ℕ

namespace PrivateRun

/-- The exit of a run in a state. -/
def exit (r : PrivateRun) (s : Ledger) : PrivateExit := (privateMain r.sys r.argv0 r.args s.counter).1

/-- What a run does: a mount run that exits with success opens a session, and an unmount run that
gets as far as the counter matches one. -/
def apply (s : Ledger) (r : PrivateRun) : Ledger where
  counter := (privateMain r.sys r.argv0 r.args s.counter).2
  unmatched :=
    if isMounting r.argv0 then if r.exit s = .success then s.unmatched + 1 else s.unmatched
    else if passesChecks r.sys r.argv0 r.args then s.unmatched - 1
    else s.unmatched

/-- A run for the alias, which forces nothing if it unmounts. -/
def PlainFor (name : CStr) (r : PrivateRun) : Prop :=
  aliasOf r.args = some name ∧ (isMounting r.argv0 = false → isForced r.args = false)

/-- A mount run that fails after it has counted its session: the directory is not mounted yet, and
one of the calls that mount it fails. -/
def FailsCounted (r : PrivateRun) : Prop :=
  isMounting r.argv0 = true ∧ passesChecks r.sys r.argv0 r.args = true ∧ r.sys.isMounted = false ∧
    ¬ (r.sys.setreuid ∧ r.sys.setregid ∧ r.sys.mount ∧ r.sys.updateMtab)

instance (r : PrivateRun) : Decidable r.FailsCounted := by
  unfold FailsCounted
  infer_instance

end PrivateRun

/-- The state after some runs, without a counter file at the beginning. -/
def ledger (runs : List PrivateRun) : Ledger := runs.foldl PrivateRun.apply ⟨[], 0⟩

/-- A run that is refused leaves a session behind that some mount run has opened and no unmount run
has matched, and a mount run that fails leaves the counter as it is. -/
def CountsSessions (before : List PrivateRun) (r : PrivateRun) : Prop :=
  (r.exit (ledger before) = .sessionsOpen → 0 < (ledger (before ++ [r])).unmatched) ∧
  (isMounting r.argv0 → r.exit (ledger before) = .failure →
    counterValue (ledger (before ++ [r])).counter = counterValue (ledger before).counter)

/-- The counter accounts for the sessions at every run of a sequence. -/
def SessionsCounted (runs : List PrivateRun) : Prop :=
  ∀ before r after, runs = before ++ r :: after → CountsSessions before r

variable {r : PrivateRun} {s : Ledger}

theorem ledger_snoc (before : List PrivateRun) (r : PrivateRun) :
    ledger (before ++ [r]) = r.apply (ledger before) := by
  simp [ledger]

/-- A run that is stopped by a check leaves the state alone. -/
theorem apply_checked (checked : passesChecks r.sys r.argv0 r.args = false) :
    r.exit s = .failure ∧ r.apply s = s := by
  have stopped : privateMain r.sys r.argv0 r.args s.counter = (.failure, s.counter) := by
    simp [privateMain, checked]
  have failed : r.exit s = .failure := congrArg Prod.fst stopped
  refine ⟨failed, ?_⟩
  rw [PrivateRun.apply, stopped, failed]
  simp [checked]

/-- The exit of a mount run that counts its session. -/
theorem mountCounted_exit (sys : PrivateSystem) (counter : CStr) :
    (mountCounted sys counter).1 =
      if sys.isMounted ∨ (sys.setreuid ∧ sys.setregid ∧ sys.mount ∧ sys.updateMtab) then .success
      else .failure := by
  unfold mountCounted
  rcases sys.isMounted <;> rcases sys.setreuid <;> rcases sys.setregid <;> rcases sys.mount <;>
    rcases sys.updateMtab <;> rfl

theorem mountCounted_counter (sys : PrivateSystem) (counter : CStr) :
    (mountCounted sys counter).2 = (increment counter).2 := by
  unfold mountCounted
  split_ifs <;> rfl

theorem umountCounted_counter (sys : PrivateSystem) (counter : CStr) :
    (umountCounted sys false counter).2 = (decrement counter).2 := by
  rw [umountCounted, if_neg Bool.false_ne_true]
  unfold umountCounted.umountNow
  split_ifs <;> rfl

theorem umountCounted_refused {sys : PrivateSystem} {counter : CStr}
    (refused : (umountCounted sys false counter).1 = .sessionsOpen) : 0 < (decrement counter).1 := by
  rw [umountCounted, if_neg Bool.false_ne_true] at refused
  unfold umountCounted.umountNow at refused
  split_ifs at refused with positive
  exact positive

/-- A mount run past the checks counts its session, whatever becomes of it. -/
theorem apply_mount (mounting : isMounting r.argv0 = true)
    (checked : passesChecks r.sys r.argv0 r.args = true) :
    (r.exit s = if r.FailsCounted then .failure else .success) ∧
      (r.apply s).counter = (increment s.counter).2 ∧
      (r.apply s).unmatched = if r.FailsCounted then s.unmatched else s.unmatched + 1 := by
  have ran : privateMain r.sys r.argv0 r.args s.counter = mountCounted r.sys s.counter := by
    simp [privateMain, checked, mounting]
  have exits : r.exit s = if r.FailsCounted then .failure else .success := by
    rw [PrivateRun.exit, ran, mountCounted_exit]
    by_cases mounted : r.sys.isMounted
    · simp [PrivateRun.FailsCounted, mounted]
    · by_cases works : r.sys.setreuid ∧ r.sys.setregid ∧ r.sys.mount ∧ r.sys.updateMtab
      · rw [if_pos (.inr works), if_neg fun fails => fails.2.2.2 works]
      · rw [if_neg fun fine => fine.elim mounted works,
          if_pos ⟨mounting, checked, by simpa using mounted, works⟩]
  refine ⟨exits, ?_, ?_⟩
  · rw [PrivateRun.apply, ran]
    exact mountCounted_counter r.sys s.counter
  · rw [PrivateRun.apply, exits]
    by_cases fails : r.FailsCounted <;> simp [mounting, fails]

/-- An unmount run past the checks takes a session away. -/
theorem apply_umount (unmounting : isMounting r.argv0 = false) (plain : isForced r.args = false)
    (checked : passesChecks r.sys r.argv0 r.args = true) :
    (r.exit s = .sessionsOpen → 0 < (decrement s.counter).1) ∧
      (r.apply s).counter = (decrement s.counter).2 ∧ (r.apply s).unmatched = s.unmatched - 1 := by
  have ran : privateMain r.sys r.argv0 r.args s.counter = umountCounted r.sys false s.counter := by
    simp [privateMain, checked, unmounting, plain]
  refine ⟨fun refused => ?_, ?_, ?_⟩
  · rw [PrivateRun.exit, ran] at refused
    exact umountCounted_refused refused
  · rw [PrivateRun.apply, ran]
    exact umountCounted_counter r.sys s.counter
  · simp [PrivateRun.apply, unmounting, checked]

/-- The number in the counter file is at most that of the sessions that are open. -/
def Covered (s : Ledger) : Prop := 0 ≤ counterValue s.counter ∧ counterValue s.counter ≤ s.unmatched

theorem increment_le {text : CStr} (nonneg : 0 ≤ counterValue text) :
    (increment text).1 ≤ counterValue text + 1 := by
  rw [increment, bumpCounter_count, toInt]
  omega

theorem decrement_le {text : CStr} {n : ℕ} (nonneg : 0 ≤ counterValue text)
    (covered : counterValue text ≤ n) : (decrement text).1 ≤ (n - 1 : ℕ) := by
  rw [decrement, bumpCounter_count, toInt]
  omega

theorem Covered.apply {name : CStr} (covered : Covered s) (plain : r.PlainFor name)
    (finishes : ¬ r.FailsCounted) : Covered (r.apply s) := by
  cases checked : passesChecks r.sys r.argv0 r.args with
  | false => rwa [(apply_checked checked).2]
  | true =>
    cases mounting : isMounting r.argv0 with
    | true =>
      obtain ⟨-, counter, unmatched⟩ := @apply_mount r s mounting checked
      have le := increment_le covered.1
      have same : counterValue (r.apply s).counter = (increment s.counter).1 := by
        rw [counter]
        exact counterValue_bumpCounter s.counter 1
      rw [if_neg finishes] at unmatched
      refine ⟨same ▸ (bumpCounter_bounds s.counter 1).1, ?_⟩
      rw [same, unmatched]
      have := covered.2
      push_cast
      omega
    | false =>
      obtain ⟨-, counter, unmatched⟩ := @apply_umount r s mounting (plain.2 mounting) checked
      have same : counterValue (r.apply s).counter = (decrement s.counter).1 := by
        rw [counter]
        exact counterValue_bumpCounter s.counter (-1)
      refine ⟨same ▸ (bumpCounter_bounds s.counter (-1)).1, ?_⟩
      rw [same, unmatched]
      exact decrement_le covered.1 covered.2

/-- Along runs none of which fails with its session counted, the counter is covered. -/
theorem covered_ledger {name : CStr} {runs : List PrivateRun} (plain : ∀ r ∈ runs, r.PlainFor name)
    (finish : ∀ r ∈ runs, ¬ r.FailsCounted) : Covered (ledger runs) := by
  induction runs using List.reverseRecOn with
  | nil => exact ⟨le_refl _, le_refl _⟩
  | append_singleton before r ih =>
    rw [ledger_snoc]
    have here : r ∈ before ++ [r] := by simp
    have earlier : ∀ u ∈ before, u ∈ before ++ [r] := fun u among => List.mem_append_left _ among
    exact (ih (fun u among => plain u (earlier u among))
      fun u among => finish u (earlier u among)).apply (plain r here) (finish r here)

/-- A refused unmount run leaves an open session behind if the counter is covered. -/
theorem refused_open {name : CStr} (covered : Covered s) (plain : r.PlainFor name)
    (refused : r.exit s = .sessionsOpen) : 0 < (r.apply s).unmatched := by
  cases checked : passesChecks r.sys r.argv0 r.args with
  | false =>
    rw [(apply_checked checked).1] at refused
    cases refused
  | true =>
    cases mounting : isMounting r.argv0 with
    | true =>
      rw [(apply_mount mounting checked).1] at refused
      split at refused <;> cases refused
    | false =>
      obtain ⟨positive, -, unmatched⟩ := @apply_umount r s mounting (plain.2 mounting) checked
      have le := decrement_le covered.1 covered.2
      have := positive refused
      rw [unmatched]
      omega

/-- A mount run that fails leaves the counter as it is if and only if it fails before it counts its
session. -/
theorem failed_mount_counter (mounting : isMounting r.argv0 = true) (failed : r.exit s = .failure) :
    counterValue (r.apply s).counter = counterValue s.counter ↔ ¬ r.FailsCounted := by
  cases checked : passesChecks r.sys r.argv0 r.args with
  | false =>
    rw [(apply_checked checked).2]
    simp [PrivateRun.FailsCounted, checked]
  | true =>
    obtain ⟨exits, counter, -⟩ := @apply_mount r s mounting checked
    rw [failed] at exits
    by_cases fails : r.FailsCounted
    · rw [counter]
      have changed : counterValue (increment s.counter).2 ≠ counterValue s.counter := by
        rw [show counterValue (increment s.counter).2 = (increment s.counter).1 from
          counterValue_bumpCounter s.counter 1]
        exact increment_changes s.counter
      simp [changed, fails]
    · rw [if_neg fails] at exits
      cases exits

/-- The counter accounts for the sessions along a sequence of mount and plain unmount runs if and
only if no mount run fails after it has counted its session. -/
theorem sessionsCounted_iff (name : CStr) (runs : List PrivateRun)
    (plain : ∀ r ∈ runs, r.PlainFor name) :
    SessionsCounted runs ↔ ∀ r ∈ runs, ¬ r.FailsCounted := by
  constructor
  · intro counts r among fails
    obtain ⟨before, after, here⟩ := List.append_of_mem among
    obtain ⟨-, unchanged⟩ := counts before r after here
    obtain ⟨mounting, checked, -⟩ := id fails
    have failed : r.exit (ledger before) = .failure := by
      rw [(apply_mount mounting checked).1, if_pos fails]
    have same := unchanged mounting failed
    rw [ledger_snoc] at same
    exact (failed_mount_counter mounting failed).mp same fails
  · rintro finish before r after rfl
    have here : r ∈ before ++ r :: after := by simp
    have earlier : ∀ u ∈ before, u ∈ before ++ r :: after :=
      fun u among => List.mem_append_left _ among
    have covered : Covered (ledger before) :=
      covered_ledger (fun u among => plain u (earlier u among))
        fun u among => finish u (earlier u among)
    rw [CountsSessions, ledger_snoc]
    exact ⟨refused_open covered (plain r here),
      fun mounting failed => (failed_mount_counter mounting failed).mpr (finish r here)⟩

/-- A run for the default alias. -/
def mountRun (sys : PrivateSystem) : PrivateRun := ⟨sys, "mount.ecryptfs_private", []⟩

def umountRun (sys : PrivateSystem) : PrivateRun := ⟨sys, "umount.ecryptfs_private", []⟩

/-- Two sessions are opened and closed, and the first unmount run is refused. -/
def twoSessions : List PrivateRun :=
  [mountRun {}, mountRun { isMounted := true }, umountRun { isMounted := true },
    umountRun { isMounted := true }]

theorem sessionsCounted_two :
    SessionsCounted twoSessions ∧
      (umountRun { isMounted := true }).exit (ledger (twoSessions.take 2)) = .sessionsOpen ∧
      (umountRun { isMounted := true }).exit (ledger (twoSessions.take 3)) = .umount := by
  refine ⟨(sessionsCounted_iff "Private" twoSessions ?_).mpr ?_, by decide +kernel, by decide +kernel⟩
  · unfold twoSessions PrivateRun.PlainFor
    decide +kernel
  · decide +kernel

/-- After two mount runs whose `mount` fails no session is open, and an unmount run is refused. -/
theorem failed_mounts_refuse :
    ¬ SessionsCounted [mountRun { mount := false }, mountRun { mount := false }, umountRun {}] ∧
      (ledger [mountRun { mount := false }, mountRun { mount := false }]).unmatched = 0 ∧
      (umountRun {}).exit (ledger [mountRun { mount := false }, mountRun { mount := false }]) =
        .sessionsOpen := by
  have refused : (umountRun {}).exit
      (ledger [mountRun { mount := false }, mountRun { mount := false }]) = .sessionsOpen := by
    decide +kernel
  refine ⟨fun counts => ?_, by decide +kernel, refused⟩
  have left := (counts [mountRun { mount := false }, mountRun { mount := false }] _ [] rfl).1 refused
  exact absurd left (by decide +kernel)

end Ecryptfs
