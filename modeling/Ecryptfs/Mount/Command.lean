import Ecryptfs.Mount.MountCall
import Ecryptfs.Mount.MountOptions

/-!
# The mount helper

`mount.ecryptfs` from its arguments to the command that it executes: the options are looked at, the decision
graph is evaluated on them, and what it pushes goes to `/bin/mount` together with the options of the user
that stay.
-/

namespace Ecryptfs

open StateTransition Separated

def eperm : ℤ := 1
def epipe : ℤ := 32
def ecanceled : ℤ := 125

/-- How the child process goes: it is not created, waiting for it fails, it exits with a status (where the
command cannot be executed, with the error), or it is killed. -/
inductive Child where
  | notForked (errno : ℕ)
  | notWaited (errno : ℕ)
  | exited (status : UInt8)
  | killed

/-- What the calls of the program come to: `mlockall`, `getpwuid`, `ecryptfs_get_version`,
`ecryptfs_validate_keyring`, `process_sig` for the signatures, `realpath`, and the child process. -/
structure MountSystem where
  locks : Bool
  user : Bool
  version : Option UInt32
  validateKeyring : ℤ
  processSig : ℕ → CStr → ℤ
  realpath : CStr → Except ℕ CStr
  child : List CStr → Child

/-- The arguments of the mount command. -/
def mountCommand (source target opts : CStr) : List CStr :=
  [lit "mount", lit "-i", lit "--no-canonicalize", lit "-t", lit "ecryptfs", source, target, lit "-o", opts]

/-- `ecryptfs_mount`: its code, and the command if it was executed. -/
def MountSystem.ecryptfsMount (sys : MountSystem) (source target opts : CStr) : ℤ × Option (List CStr) :=
  match sys.realpath source with
  | .error errno => (-errno, none)
  | .ok source =>
    match sys.realpath target with
    | .error errno => (-errno, none)
    | .ok target =>
      let command := mountCommand source target opts
      match sys.child command with
      | .notForked errno => (-errno, none)
      | .notWaited errno => (-errno, some command)
      | .killed => (-eperm, some command)
      | .exited status =>
        let rc : ℤ := -(status.toNat : ℤ)
        (if rc = -epipe then -eperm else rc, some command)

/-- The options that `parse_arguments` finds among the arguments from the third one on: the argument behind
the first `-o`.  The other arguments are taken as they are, since a slash is looked for in the place of the
terminator. -/
def optionArgument : List CStr → Option CStr
  | arg :: next :: rest => if arg = lit "-o" then some next else optionArgument (next :: rest)
  | _ => none

/-- The options with which the graph is evaluated. -/
def quietOpts (optsStr : Option CStr) : Option CStr :=
  if (optsStrContainsOption optsStr (lit "no_prompt") ∨ optsStrContainsOption optsStr (lit "wild_ass_guess")) ∧
      ¬ optsStrContainsOption optsStr (lit "verbosity=0") then
    optsStr.map (· ++ lit ",verbosity=0")
  else optsStr

/-- Whether signatures are looked up in the cache. -/
def usesSigCache (optsStr : Option CStr) : Bool :=
  !optsStrContainsOption optsStr (lit "no_sig_cache") &&
    !optsStrContainsOption (quietOpts optsStr) (lit "verbosity=0")

/-- What `main` returns for the code of `ecryptfs_do_mount`. -/
def mountExit (rc : ℤ) : ℤ := if rc = ecanceled then 0 else if 0 < rc then -rc else rc

/-- `main` behind the decision graph, which left `stack` behind; `none` if the program faults. -/
def MountSystem.mounts (sys : MountSystem) (argv : List CStr) (stack : List (Option CStr)) :
    Option (ℤ × Option (List CStr)) :=
  let optsStr := optionArgument (argv.drop 3)
  match doMount (usesSigCache optsStr) sys.processSig optsStr stack with
  | .fault => none
  | .refused rc => some (mountExit rc, none)
  | .passed opts =>
    let (rc, command) := sys.ecryptfsMount (argv.getD 1 []) (argv.getD 2 []) opts
    some (mountExit rc, command)

/-- `main` with the arguments `argv`, where the registered key modules are `mods`, the rc file has the
options `rcFile` and the user gives the answers `inputs`: it returns `rc`, and has executed `command`. -/
def MountMain (sys : MountSystem) (mods : UInt32 → List GraphModule) (rcFile : List NameValPair)
    (inputs : List (Except {rc : ℤ // rc < 0} CStr)) (argv : List CStr) (rc : ℤ)
    (command : Option (List CStr)) : Prop :=
  if sys.locks = false then rc = -1 ∧ command = none
  else if sys.user = false then rc = -eio ∧ command = none
  else if argv.length < 3 then rc = -einval ∧ command = none
  else if sys.validateKeyring ≠ 0 then rc = sys.validateKeyring ∧ command = none
  else
    let optsStr := optionArgument (argv.drop 3)
    if optsStrContainsOption optsStr (lit "remount") then rc = -einval ∧ command = none
    else
      let version := sys.version.getD versioningPassphrase
      ∃ code last s, Reaches (evalStep (mountCall (moduleCalls (mods version))))
        (processStart version (mods version) rcFile (parseOptionsInt (quietOpts optsStr)).2 inputs)
        (.done code last s) ∧
        if evalResult code ≠ 0 then
          rc = (if 0 < evalResult code then -einval else evalResult code) ∧ command = none
        else sys.mounts argv s.world.stack = some (rc, command)

variable {sys : MountSystem} {mods : UInt32 → List GraphModule} {rcFile : List NameValPair}
  {inputs : List (Except {rc : ℤ // rc < 0} CStr)} {argv command : List CStr} {rc : ℤ}
  {opts source target : CStr} {rest : List CStr}

/-- A command is only executed with options that were passed on. -/
theorem ecryptfsMount_command {source target opts : CStr}
    (executed : (sys.ecryptfsMount source target opts).2 = some command) :
    ∃ source' target', command = mountCommand source' target' opts := by
  unfold MountSystem.ecryptfsMount at executed
  split at executed
  · cases executed
  · next source' _ =>
    split at executed
    · cases executed
    · next target' _ =>
      dsimp only at executed
      split at executed
      · cases executed
      · exact ⟨source', target', (Option.some.inj executed).symm⟩
      · exact ⟨source', target', (Option.some.inj executed).symm⟩
      · exact ⟨source', target', (Option.some.inj executed).symm⟩

theorem mounts_command {stack : List (Option CStr)} (executed : sys.mounts argv stack = some (rc, some command)) :
    ∃ source target opts, command = mountCommand source target opts ∧
      doMount (usesSigCache (optionArgument (argv.drop 3))) sys.processSig (optionArgument (argv.drop 3)) stack =
        .passed opts := by
  unfold MountSystem.mounts at executed
  dsimp only at executed
  split at executed
  · cases executed
  · cases executed
  · next opts passed =>
    obtain ⟨-, executed⟩ := Prod.mk.inj (Option.some.inj executed)
    obtain ⟨source, target, isCommand⟩ := ecryptfsMount_command executed
    exact ⟨source, target, opts, isCommand, passed⟩

/-- A command comes from an evaluation that succeeded. -/
theorem mountMain_command (run : MountMain sys mods rcFile inputs argv rc (some command)) :
    ∃ version code last s, Reaches (evalStep (mountCall (moduleCalls (mods version))))
        (processStart version (mods version) rcFile
          (parseOptionsInt (quietOpts (optionArgument (argv.drop 3)))).2 inputs) (.done code last s) ∧
      evalResult code = 0 ∧ sys.mounts argv s.world.stack = some (rc, some command) := by
  unfold MountMain at run
  split_ifs at run
  · cases run.2
  · cases run.2
  · cases run.2
  · cases run.2
  · dsimp only at run
    split_ifs at run
    · cases run.2
    · obtain ⟨code, last, s, reached, ended⟩ := run
      by_cases success : evalResult code = 0
      · rw [if_neg (not_not.mpr success)] at ended
        exact ⟨_, code, last, s, reached, success, ended⟩
      · rw [if_pos success] at ended
        cases ended.2

theorem mountExit_ecryptfsMount (source target : CStr) :
    mountExit (sys.ecryptfsMount source target opts).1 = (sys.ecryptfsMount source target opts).1 := by
  have neg : (sys.ecryptfsMount source target opts).1 ≤ 0 := by
    unfold MountSystem.ecryptfsMount
    split
    · exact neg_nonpos.mpr (Int.natCast_nonneg _)
    · split
      · exact neg_nonpos.mpr (Int.natCast_nonneg _)
      · dsimp only
        split
        · exact neg_nonpos.mpr (Int.natCast_nonneg _)
        · exact neg_nonpos.mpr (Int.natCast_nonneg _)
        · show -eperm ≤ 0
          decide
        · dsimp only
          split_ifs
          · show -eperm ≤ 0
            decide
          · exact neg_nonpos.mpr (Int.natCast_nonneg _)
  unfold mountExit
  have apart : (sys.ecryptfsMount source target opts).1 ≠ ecanceled := fun same => by
    rw [same] at neg
    exact absurd neg (by decide)
  rw [if_neg apart, if_neg (not_lt.mpr neg)]

/-- With options that ask for no prompts, the evaluation of the graph decides about the mount. -/
theorem mountMain_iff (ready : sys.locks = true ∧ sys.user = true ∧ sys.validateKeyring = 0)
    (isOption : optionArgument rest = some opts)
    (quiet : optsStrContainsOption (some opts) (lit "verbosity=0") = true)
    (noRemount : optsStrContainsOption (some opts) (lit "remount") = false) {stack : List (Option CStr)}
    (processed : ∀ rc left, Processed (sys.version.getD versioningPassphrase)
      (mods (sys.version.getD versioningPassphrase)) (parseOptionsInt (some opts)).2 inputs rc left ↔
      rc = 0 ∧ left = stack) (prog : CStr) (rc : ℤ) (command : Option (List CStr)) :
    MountMain sys mods [] inputs (prog :: source :: target :: rest) rc command ↔
      sys.mounts (prog :: source :: target :: rest) stack = some (rc, command) := by
  have behind : (prog :: source :: target :: rest).drop 3 = rest := rfl
  have same : quietOpts (some opts) = some opts := if_neg fun both => both.2 quiet
  unfold MountMain
  rw [behind, isOption, ready.1, ready.2.1, ready.2.2, if_neg (by decide), if_neg (by decide),
    if_neg (by simp), if_neg (by decide)]
  dsimp only
  rw [noRemount, if_neg (by decide), same]
  constructor
  · rintro ⟨code, last, s, reached, ended⟩
    obtain ⟨success, left⟩ := (processed (evalResult code) s.world.stack).mp ⟨code, last, s, reached, rfl, rfl⟩
    rw [if_neg (not_not.mpr success), left] at ended
    exact ended
  · intro mounted
    obtain ⟨code, last, s, reached, success, left⟩ := (processed 0 stack).mpr ⟨rfl, rfl⟩
    refine ⟨code, last, s, reached, ?_⟩
    rw [if_neg (not_not.mpr success), left, mounted]

end Ecryptfs
