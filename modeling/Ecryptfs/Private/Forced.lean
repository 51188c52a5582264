import Ecryptfs.Private.Counter
import Ecryptfs.Private.Mtab

/-!
# Forced unmounting

The manual offers `umount.ecryptfs_private -f` to unmount whatever the counter says.  The one argument,
however, is read twice: `main` first takes it for the alias of a configuration and ends when there is no file
`-f.conf` in `~/.ecryptfs`, and only then looks whether it begins with `-f`.  So a forced run ends before the
counter (`forcedUnmount_never`).
-/

namespace Ecryptfs

/-! ## The configuration of an alias -/

/-- A file in `~/.ecryptfs`: what `stat` says about it, whether it can be opened, and the entry that
`getmntent` finds in it. -/
structure ConfFile where
  regular : Bool
  owner : ℕ
  readable : Bool
  entry : Option MtabEntry

/-- What the other calls of `read_config` come to: `asprintf`, and `strdup` by the number of the call. -/
structure ConfCalls where
  asprintf : Bool
  strdup : ℕ → Bool

/-- The source, the destination and the options of a configuration. -/
structure PrivateConf where
  src : CStr
  dest : CStr
  opts : CStr

section

variable (calls : ConfCalls) (dir : CStr → Option ConfFile) (uid : ℕ)

/-- `read_config`, on the files in `~/.ecryptfs` by their names. -/
def readConfig (name : CStr) : Except ℤ PrivateConf :=
  if calls.asprintf = false then .error (-1)
  else match dir (name ++ lit ".conf") with
    | none => .error (-1)
    | some file =>
      if file.regular = false ∨ file.owner ≠ uid then .error (-1)
      else if file.readable = false then .error (-1)
      else match file.entry with
        | none => .error (-1)
        | some e =>
          if e.fstype ≠ lit "ecryptfs" then .error (-1)
          else if calls.strdup 0 = false ∨ calls.strdup 1 = false ∨ calls.strdup 2 = false then
            .error (-2)
          else .ok { src := e.fsname, dest := e.dir, opts := e.opts }

/-- The configuration can be read, and asks for no mount options. -/
def acceptsConfig (name : CStr) : Bool :=
  match readConfig calls dir uid name with
  | .error _ => false
  | .ok conf => conf.opts = [] || conf.opts = lit "none"

/-- The answers of a system whose configurations are the files in `~/.ecryptfs`. -/
def PrivateSystem.withHome (sys : PrivateSystem) : PrivateSystem :=
  { sys with readConfig := acceptsConfig calls dir uid }

end

/-! ## Runs on the counters of all aliases -/

/-- The program on the counter files, by the aliases they belong to. -/
def privateRun (sys : PrivateSystem) (argv0 : CStr) (args : List CStr) (counters : CStr → CStr) :
    PrivateExit × (CStr → CStr) :=
  match aliasOf args with
  | none => (.failure, counters)
  | some name =>
    let ran := privateMain sys argv0 args (counters name)
    (ran.1, Function.update counters name ran.2)

/-- `umount.ecryptfs_private -f` gets to the counter of the private directory, sets it to zero, and goes on
to unmount whatever it was. -/
structure ForcedUnmount (sys : PrivateSystem) (argv0 : CStr) (counters : CStr → CStr) : Prop where
  reaches : passesChecks sys argv0 ["-f"] = true
  resets : counterValue ((privateRun sys argv0 ["-f"] counters).2 "Private") = 0
  goesOn : (privateRun sys argv0 ["-f"] counters).1 =
    (umountCounted.umountNow sys (zero (counters "Private")).2).1

variable {calls : ConfCalls} {dir : CStr → Option ConfFile} {uid : ℕ} {sys : PrivateSystem} {argv0 : CStr}
  {args : List CStr} {counters : CStr → CStr}

theorem acceptsConfig_absent {name : CStr} (absent : dir (name ++ lit ".conf") = none) :
    acceptsConfig calls dir uid name = false := by
  have failed : readConfig calls dir uid name = .error (-1) := by
    unfold readConfig
    rw [absent, ite_self]
  rw [acceptsConfig, failed]

/-- A run that is stopped by a check leaves all counters alone. -/
theorem privateRun_checked (checked : passesChecks sys argv0 args = false) :
    privateRun sys argv0 args counters = (.failure, counters) := by
  unfold privateRun
  rcases aliasOf args with _ | name
  · rfl
  · have stopped : privateMain sys argv0 args (counters name) = (.failure, counters name) := by
      simp [privateMain, checked]
    dsimp only
    rw [stopped, Function.update_eq_self]

/-- **Forced unmounting does not work.**  Without a file `-f.conf` in `~/.ecryptfs` the program called with `-f`
fails and leaves all counters as they are, on every home directory, counter and mount state. -/
theorem forcedUnmount_never (absent : dir "-f.conf" = none) (calls : ConfCalls) (uid : ℕ)
    (sys : PrivateSystem) (argv0 : CStr) (counters : CStr → CStr) :
    privateRun (sys.withHome calls dir uid) argv0 ["-f"] counters = (.failure, counters) ∧
      ¬ ForcedUnmount (sys.withHome calls dir uid) argv0 counters := by
  have refused : acceptsConfig calls dir uid (lit "-f") = false := acceptsConfig_absent absent
  have checked : passesChecks (sys.withHome calls dir uid) argv0 ["-f"] = false := by
    simp [passesChecks, findDirectories, PrivateSystem.withHome, refused]
  exact ⟨privateRun_checked checked, fun works => Bool.false_ne_true (checked.symm.trans works.reaches)⟩

/-- A home directory without configurations, and no call that fails. -/
def noConfigs : PrivateSystem :=
  PrivateSystem.withHome ⟨true, fun _ => true⟩ (fun _ => none) 1000 { isMounted := true }

/-- Two sessions are open, and forcing the unmount changes nothing. -/
theorem forcedUnmount_sessions :
    privateRun noConfigs "umount.ecryptfs_private" ["-f"] (fun _ => lit "2\n") =
        (.failure, fun _ => lit "2\n") ∧
      ¬ ForcedUnmount noConfigs "umount.ecryptfs_private" fun _ => lit "2\n" :=
  @forcedUnmount_never (fun _ => none) rfl ⟨true, fun _ => true⟩ 1000 { isMounted := true }
    "umount.ecryptfs_private" fun _ => lit "2\n"

/-- The program gets to its counter without arguments, but not when it is forced. -/
theorem forcedUnmount_fails :
    passesChecks noConfigs "umount.ecryptfs_private" [] = true ∧
      ¬ ForcedUnmount noConfigs "umount.ecryptfs_private" fun _ => lit "2\n" :=
  ⟨by decide, fun works => absurd works.reaches (by decide)⟩

end Ecryptfs
