import Ecryptfs.Passphrase.Tools
import Ecryptfs.Private.Mtab
import Ecryptfs.Private.Signatures
import Ecryptfs.Umount.UnlinkKeys

/-!
# The private directory of a user

What `mount.ecryptfs_private` and `umount.ecryptfs_private` do to the table of mounts, the keyring and the
counter of a user, called without arguments.  `ecryptfs_private_is_mounted` looks at the table before each
of them: for a mount it is enough that the source or the mount point is in use, for an unmount the source,
the mount point and the signature have to be those of one entry.
-/

namespace Ecryptfs

/-! ## The table of mounts -/

/-- What the calls of `ecryptfs_private_is_mounted` come to: the `asprintf` of the option with the
signature, and the opening of the table. -/
structure TableCalls where
  asprintf : Bool
  setmntent : Bool

/-- What is looked for: a mount with the device or the mount point, if these are given, or a mount with
both of them. -/
inductive MountQuery where
  | mounting (dev mnt : Option CStr)
  | unmounting (dev mnt : CStr)

/-- An entry of the table that stops the search. -/
def MountQuery.matches (q : MountQuery) (opt : Option CStr) (m : MtabEntry) : Bool :=
  m.fstype = lit "ecryptfs" &&
    match q with
    | mounting dev mnt => dev = some m.fsname || mnt = some m.dir
    | unmounting dev mnt =>
      m.fsname = dev && m.dir = mnt && opt.all fun opt => hasmntopt ⟨m.dir, m.fstype, m.opts⟩ opt

/-- `ecryptfs_private_is_mounted`. -/
def ecryptfsPrivateIsMounted (calls : TableCalls) (q : MountQuery) (sig : Option CStr)
    (mounts : List MtabEntry) : Bool :=
  if sig.isSome ∧ calls.asprintf = false then false
  else if calls.setmntent = false then false
  else mounts.any (q.matches (sig.map (sigName ++ ·)))

/-- The last mount on a mount point is taken away. -/
def detach (mnt : CStr) (mounts : List MtabEntry) : List MtabEntry :=
  (mounts.reverse.eraseP fun m => m.dir = mnt).reverse

/-! ## The user -/

def maxpathlen : ℕ := 4096

/-- `strtok` with a delimiter, on a new text. -/
def strtok (delim : UInt8) (s : CStr) : Option CStr :=
  match s.dropWhile (· = delim) with
  | [] => none
  | c :: rest => some ((c :: rest).takeWhile (· ≠ delim))

/-- A user, with what is in `~/.ecryptfs/Private.mnt` and `~/.ecryptfs/Private.sig` if these can be read. -/
structure PrivateHome where
  uid : ℕ
  name : CStr
  pwDir : CStr
  mntFile : Option (List UInt8)
  sigFile : Option (List UInt8)

/-- The encrypted directory. -/
def PrivateHome.src (home : PrivateHome) : CStr := home.pwDir ++ "/." ++ "Private"

/-- `ecryptfs_fetch_private_mnt`, by the outcome of its `malloc`. -/
def ecryptfsFetchPrivateMnt (malloc : Bool) (home : PrivateHome) : Option CStr :=
  let mntDefault := home.pwDir ++ lit "/" ++ "Private"
  match home.mntFile with
  | none => some mntDefault
  | some content =>
    if malloc = false then none
    else
      match fgets maxpathlen content with
      | none => some mntDefault
      | some (stored, _) => strtok 10 (cString stored)

/-- A character that may stand at a place of a user name of a given length. -/
def usernameChar (len i : ℕ) (c : UInt8) : Bool :=
  (97 ≤ c && c ≤ 122) || (65 ≤ c && c ≤ 90) || (48 ≤ c && c ≤ 57) || c = 95 || c = 46 || c = 64 ||
    (c = 45 && i ≠ 0) || (c = 36 && i = len - 1)

/-- `check_username`. -/
def checkUsername (u : CStr) : ℤ :=
  if u.length = 0 then 1
  else if u.zipIdx.all fun (c, i) => usernameChar u.length i c then 0
  else 1

/-- A directory that could be entered: what `stat` says about it if it does, and the path that `getcwd`
returns. -/
structure EnteredDir where
  stat : Bool
  isDir : Bool
  owner : ℕ
  cwd : Option CStr

/-- `check_ownership_mnt`: the canonical path of the mount point. -/
def checkOwnershipMnt (uid : ℕ) (chdir : CStr → Option EnteredDir) (mnt : CStr) : Option CStr :=
  match chdir mnt with
  | none => none
  | some dir => if dir.stat = false ∨ dir.isDir = false ∨ dir.owner ≠ uid then none else dir.cwd

/-! ## The programs -/

/-- The wrapped passphrase and the keyring of the user, the table of mounts, and the counter. -/
structure PrivateWorld where
  vault : Vault
  mounts : List MtabEntry
  counter : CStr

/-- What the calls of one run come to.  Of `sys` and `sigs` the parts that are computed here are not looked
at; `shown` are the options that the table shows for a mount, and `umount` says whether the program of that
name succeeds. -/
structure PrivateCalls where
  sys : PrivateSystem
  malloc : Bool
  sigs : SigCalls
  chdir : CStr → Option EnteredDir
  table : TableCalls
  shown : CStr → CStr
  unlinkKey : CStr → Bool
  umount : Bool

namespace PrivateCalls

variable (calls : PrivateCalls) (home : PrivateHome)

/-- The signatures are looked up in the keyring. -/
def fetching (K : Keyring) : SigCalls :=
  { calls.sigs with file := home.sigFile, search := fun _ sig => (K sig).isSome }

/-- The mount point, by its canonical path. -/
def dest : Option CStr :=
  (ecryptfsFetchPrivateMnt calls.malloc home).bind (checkOwnershipMnt home.uid calls.chdir)

/-- The system as the program finds it. -/
def system (isMounted : Bool) : PrivateSystem :=
  { calls.sys with
    fetchPrivateMnt := (ecryptfsFetchPrivateMnt calls.malloc home).isSome
    checkUsername := checkUsername home.name = 0
    checkOwnershipMnt := (calls.dest home).isSome
    isMounted := isMounted }

/-- `mount.ecryptfs_private` without arguments. -/
def mountPrivate (w : PrivateWorld) : PrivateExit × PrivateWorld :=
  let sigs := calls.fetching home w.vault.keyring
  let dest := (calls.dest home).getD []
  let isMounted := ecryptfsPrivateIsMounted calls.table (.mounting (some home.src) (some dest))
    ((fetchSig sigs).map Prod.fst) w.mounts
  let sys := calls.system home isMounted
  let (exit, counter) := privateMain (sys.fetching sigs) "mount.ecryptfs_private" [] w.counter
  let mounts :=
    match privateMountCall sys sigs "mount.ecryptfs_private" [] with
    | none => w.mounts
    | some opt => if sys.mount then w.mounts ++ [mountEntry home.src dest (calls.shown opt)] else w.mounts
  (exit, { w with mounts, counter })

/-- `ecryptfs_remove_auth_tok_from_keyring`: the keyring without the key, if it can be unlinked. -/
def removeAuthTokFromKeyring (sig : CStr) (K : Keyring) : Keyring :=
  if calls.unlinkKey sig then Function.update K sig none else K

/-- The keys of the signatures are removed. -/
def clearKeys (sigs : Option (CStr × Option CStr)) (K : Keyring) : Keyring :=
  match sigs with
  | none => K
  | some (fekek, none) => calls.removeAuthTokFromKeyring fekek K
  | some (fekek, some fnek) => calls.removeAuthTokFromKeyring fnek (calls.removeAuthTokFromKeyring fekek K)

/-- `umount.ecryptfs_private` without arguments. -/
def umountPrivate (w : PrivateWorld) : PrivateExit × PrivateWorld :=
  let sigs := calls.fetching home w.vault.keyring
  let dest := (calls.dest home).getD []
  let isMounted := ecryptfsPrivateIsMounted calls.table (.unmounting home.src dest)
    ((fetchSig sigs).map Prod.fst) w.mounts
  let sys := (calls.system home isMounted).fetching sigs
  let (exit, counter) := privateMain sys "umount.ecryptfs_private" [] w.counter
  let cleared :=
    if passesChecks sys "umount.ecryptfs_private" [] ∧ exit ≠ .sessionsOpen then
      calls.clearKeys (fetchSig sigs) w.vault.keyring
    else w.vault.keyring
  let mounts := if exit = .umount ∧ calls.umount then detach dest w.mounts else w.mounts
  (exit, { vault := { w.vault with keyring := cleared }, mounts, counter })

end PrivateCalls

/-! ## The signatures -/

/-- The calls of `fetch_sig` when none of them fails. -/
def PrivateHome.sigCalls (home : PrivateHome) (K : Keyring) : SigCalls where
  filename := true
  file := home.sigFile
  pointers := true
  buffer _ := true
  readable _ := true
  search _ sig := (K sig).isSome

/-- The signatures in the file of the user, if their keys are in the keyring. -/
def PrivateHome.signatures (home : PrivateHome) (K : Keyring) : Option (CStr × Option CStr) :=
  fetchSig (home.sigCalls K)

variable {home : PrivateHome} {K K' : Keyring} {calls : PrivateCalls} {w : PrivateWorld} {dest : CStr}

/-- The same calls in a keyring that has every key. -/
def SigCalls.anyKey (calls : SigCalls) : SigCalls := { calls with search := fun _ _ => true }

/-- The signatures in the file of the user, whatever keys there are. -/
def PrivateHome.listed (home : PrivateHome) : Option (CStr × Option CStr) :=
  fetchSig (home.sigCalls fun _ => none).anyKey

/-- The keys of the signatures are in the keyring. -/
def keysThere (K : Keyring) (sigs : CStr × Option CStr) : Bool :=
  (K sigs.1).isSome && sigs.2.all fun fnek => (K fnek).isSome

/-- The keys are looked up last. -/
theorem fetchLine_anyKey (calls : SigCalls) (i : ℕ) (file : List UInt8) : fetchLine calls i file =
    match fetchLine calls.anyKey i file with
    | .error => .error
    | .missing => .missing
    | .signature sig rest => if calls.search i sig = false then .error else .signature sig rest := by
  obtain ⟨filename, content, pointers, buffer, readable, search⟩ := calls
  unfold SigCalls.anyKey fetchLine
  dsimp only
  by_cases noBuffer : buffer i = false
  · rw [if_pos noBuffer, if_pos noBuffer]
  rw [if_neg noBuffer, if_neg noBuffer]
  rcases (if readable i then fgets (keyBytes + 2) file else none) with _ | ⟨stored, left⟩
  · rfl
  dsimp only
  rcases validateSig (stored ++ List.replicate (keyBytes + 2 - stored.length) 0) 0 with _ | buf
  · rfl
  dsimp only
  by_cases wrong : 0 < (cString buf).length ∧ (cString buf).length ≠ keyBytes
  · rw [if_pos wrong, if_pos wrong]
  · rw [if_neg wrong, if_neg wrong]
    rfl

/-- `fetch_sig` comes back with the signatures of the file if their keys are found. -/
theorem fetchSig_anyKey (calls : SigCalls) : fetchSig calls =
    (fetchSig calls.anyKey).filter fun sigs => calls.search 0 sigs.1 && sigs.2.all (calls.search 1) := by
  have line := fetchLine_anyKey calls
  obtain ⟨filename, file, pointers, buffer, readable, search⟩ := calls
  unfold fetchSig
  dsimp only [SigCalls.anyKey] at line ⊢
  rcases filename with _ | _
  · rfl
  rcases file with _ | content
  · rfl
  rcases pointers with _ | _
  · rfl
  simp only [Bool.true_eq_false, if_false]
  rw [line]
  rcases fetchLine ⟨true, some content, true, buffer, readable, fun _ _ => true⟩ 0 content with
    _ | _ | ⟨fekek, rest⟩
  · rfl
  · rfl
  dsimp only
  by_cases found : search 0 fekek = false
  · rw [if_pos found]
    rcases fetchLine ⟨true, some content, true, buffer, readable, fun _ _ => true⟩ 1 rest with
      _ | _ | ⟨fnek, rest'⟩
    · rfl
    · simp [Option.filter, found]
    · simp [Option.filter, found]
  · rw [if_neg found]
    dsimp only
    rw [line]
    rcases fetchLine ⟨true, some content, true, buffer, readable, fun _ _ => true⟩ 1 rest with
      _ | _ | ⟨fnek, rest'⟩
    · rfl
    · simp [Option.filter, found]
    · by_cases found' : search 1 fnek = false
      · simp [Option.filter, found']
      · simp [Option.filter, found, found']

/-- The signatures are those of the file if their keys are there. -/
theorem signatures_eq (home : PrivateHome) (K : Keyring) :
    home.signatures K = home.listed.filter (keysThere K) :=
  fetchSig_anyKey (home.sigCalls K)

/-- A signature has nothing but hexadecimal digits. -/
theorem fetchLine_digits {calls : SigCalls} {i : ℕ} {file sig rest : List UInt8}
    (fetched : fetchLine calls i file = .signature sig rest) : ∀ c ∈ sig, isXDigit c = true := by
  unfold fetchLine at fetched
  by_cases noBuffer : calls.buffer i = false
  · rw [if_pos noBuffer] at fetched
    cases fetched
  rw [if_neg noBuffer] at fetched
  rcases read : (if calls.readable i then fgets (keyBytes + 2) file else none) with _ | ⟨stored, left⟩
  · rw [read] at fetched
    cases fetched
  rw [read] at fetched
  dsimp only at fetched
  rcases valid : validateSig (stored ++ List.replicate (keyBytes + 2 - stored.length) 0) 0 with _ | buf
  · rw [valid] at fetched
    cases fetched
  rw [valid] at fetched
  dsimp only at fetched
  split_ifs at fetched
  obtain ⟨rfl, -⟩ := SigLine.signature.inj fetched
  rw [cString_validateSig valid (by simp)]
  exact fun c among => List.mem_takeWhile_imp among

theorem fetchSig_digits {calls : SigCalls} {sigs : CStr × Option CStr} (fetched : fetchSig calls = some sigs) :
    ∀ c ∈ sigs.1, isXDigit c = true := by
  unfold fetchSig at fetched
  by_cases noName : calls.filename = false
  · rw [if_pos noName] at fetched
    cases fetched
  rw [if_neg noName] at fetched
  rcases opened : calls.file with _ | content
  · rw [opened] at fetched
    cases fetched
  rw [opened] at fetched
  dsimp only at fetched
  by_cases noPointers : calls.pointers = false
  · rw [if_pos noPointers] at fetched
    cases fetched
  rw [if_neg noPointers] at fetched
  rcases first : fetchLine calls 0 content with _ | _ | ⟨fekek, rest⟩
  · rw [first] at fetched
    cases fetched
  · rw [first] at fetched
    cases fetched
  rw [first] at fetched
  dsimp only at fetched
  rcases second : fetchLine calls 1 rest with _ | _ | ⟨fnek, rest'⟩
  · rw [second] at fetched
    cases fetched
  · rw [second] at fetched
    obtain rfl := Option.some.inj fetched
    exact fetchLine_digits first
  · rw [second] at fetched
    obtain rfl := Option.some.inj fetched
    exact fetchLine_digits first

/-! ## Keyrings -/

/-- The keys of a keyring are in another one. -/
def Keyring.Within (K K' : Keyring) : Prop := ∀ sig, (K sig).isSome → (K' sig).isSome

theorem Keyring.Within.refl (K : Keyring) : K.Within K := fun _ there => there

theorem Keyring.Within.keysThere (within : K.Within K') {sigs : CStr × Option CStr}
    (there : keysThere K sigs = true) : Ecryptfs.keysThere K' sigs = true := by
  unfold Ecryptfs.keysThere at there ⊢
  rw [Bool.and_eq_true] at there ⊢
  refine ⟨within _ there.1, ?_⟩
  rcases sigs with ⟨fekek, _ | fnek⟩
  · rfl
  · exact within _ there.2

/-! ## Mounting and unmounting -/

/-- Whatever the calls come to, a mount is added only if the search has found none. -/
theorem mountPrivate_mounts (calls : PrivateCalls) (home : PrivateHome) (w : PrivateWorld) :
    (calls.mountPrivate home w).2.mounts = w.mounts ∨
      (∃ mnt sig, ecryptfsPrivateIsMounted calls.table (.mounting (some home.src) mnt) sig w.mounts = false) ∧
        ∃ dir opts, (calls.mountPrivate home w).2.mounts = w.mounts ++ [mountEntry home.src dir opts] := by
  unfold PrivateCalls.mountPrivate
  dsimp only
  generalize found : ecryptfsPrivateIsMounted _ _ _ w.mounts = isMounted
  rcases isMounted with _ | _
  · rcases privateMountCall _ _ _ _ with _ | opt
    · exact .inl rfl
    · dsimp only
      split_ifs
      · exact .inr ⟨⟨_, _, found⟩, _, _, rfl⟩
      · exact .inl rfl
  · left
    have none_ : ∀ sigs, privateMountCall (calls.system home true) sigs "mount.ecryptfs_private" [] = none := by
      intro sigs
      unfold privateMountCall
      rw [if_pos (show (calls.system home true).isMounted = true from rfl)]
      simp only [ite_self]
    rw [none_]

theorem umountPrivate_mounts (calls : PrivateCalls) (home : PrivateHome) (w : PrivateWorld) :
    (calls.umountPrivate home w).2.mounts = w.mounts ∨
      ∃ mnt, (calls.umountPrivate home w).2.mounts = detach mnt w.mounts := by
  unfold PrivateCalls.umountPrivate
  dsimp only
  split_ifs
  · exact .inr ⟨_, rfl⟩
  · exact .inl rfl

/-- No call of a run fails, the user owns the mount point, which has the path `dest`, and the table shows the
signature of a mount. -/
structure PrivateCalls.Works (calls : PrivateCalls) (home : PrivateHome) (dest : CStr) : Prop where
  starts : calls.sys.seteuid = true ∧ calls.sys.getpwuid = true ∧ calls.sys.lockCounter = true ∧
    calls.sys.buildOptions = true
  mounts : calls.sys.setreuid = true ∧ calls.sys.setregid = true ∧ calls.sys.mount = true ∧
    calls.sys.updateMtab = true
  umounts : calls.sys.execl = true ∧ calls.umount = true
  fetches : ∀ K, calls.fetching home K = home.sigCalls K
  dest : calls.dest home = some dest
  table : calls.table = ⟨true, true⟩
  username : checkUsername home.name = 0
  shown : ∀ fekek fnek dir, (∀ c ∈ fekek, isXDigit c = true) →
    hasmntopt ⟨dir, "ecryptfs", calls.shown (mountOptionText (some fekek) fnek)⟩ (sigName ++ fekek) = true

theorem PrivateCalls.Works.mnt (works : calls.Works home dest) :
    (ecryptfsFetchPrivateMnt calls.malloc home).isSome := by
  have isDest := works.dest
  unfold PrivateCalls.dest at isDest
  rcases mnt : ecryptfsFetchPrivateMnt calls.malloc home with _ | mnt
  · rw [mnt] at isDest
    cases isDest
  · rfl

/-- Past the checks, unless the signatures are missing for a mount. -/
theorem PrivateCalls.Works.passes (works : calls.Works home dest) (isMounted : Bool) (argv0 : CStr) :
    passesChecks ((calls.system home isMounted).fetching (calls.fetching home K)) argv0 [] =
      ((home.signatures K).isSome || !isMounting argv0) := by
  have starts := works.starts
  have noDots : strstr (lit "Private") (lit "..") = false := by decide
  unfold passesChecks findDirectories aliasOf PrivateSystem.fetching PrivateCalls.system
  dsimp only
  rw [works.fetches, works.dest, works.username, works.mnt]
  simp [starts, noDots, PrivateHome.signatures]

/-- Without the keys a mount run leaves everything as it is. -/
theorem mountPrivate_refused (works : calls.Works home dest) (missing : home.signatures w.vault.keyring = none) :
    calls.mountPrivate home w = (.failure, w) := by
  have refused := fun isMounted => works.passes (K := w.vault.keyring) isMounted "mount.ecryptfs_private"
  have mounting : isMounting "mount.ecryptfs_private" = true := by decide
  simp only [missing, mounting, Option.isSome_none, Bool.not_true, Bool.or_self] at refused
  unfold PrivateCalls.mountPrivate privateMain privateMountCall
  dsimp only
  simp only [refused, Bool.not_false, if_true]

/-- With the keys a mount run counts a session, and mounts the directory unless the search finds it. -/
theorem mountPrivate_works (works : calls.Works home dest) {sigs : CStr × Option CStr}
    (there : home.signatures w.vault.keyring = some sigs) :
    calls.mountPrivate home w = (.success, { w with
      counter := (increment w.counter).2
      mounts :=
        if ecryptfsPrivateIsMounted ⟨true, true⟩ (.mounting (some home.src) (some dest)) (some sigs.1) w.mounts then
          w.mounts
        else w.mounts ++ [mountEntry home.src dest (calls.shown (mountOptionText (some sigs.1) sigs.2))] }) := by
  have passes := fun isMounted => works.passes (K := w.vault.keyring) isMounted "mount.ecryptfs_private"
  have mounting : isMounting "mount.ecryptfs_private" = true := by decide
  simp only [there, mounting, Option.isSome_some, Bool.true_or] at passes
  have fetched : fetchSig (calls.fetching home w.vault.keyring) = some sigs := by
    rw [works.fetches]
    exact there
  obtain ⟨setreuid, setregid, mount, updateMtab⟩ := works.mounts
  unfold PrivateCalls.mountPrivate privateMain privateMountCall
  dsimp only
  simp only [passes, mounting, fetched, works.dest, works.table, Bool.not_true, Bool.false_eq_true, if_false, if_true,
    Option.map_some, Option.getD_some, Option.bind_some]
  unfold mountCounted PrivateSystem.fetching PrivateCalls.system
  simp only [setreuid, setregid, mount, updateMtab, Bool.not_true, Bool.false_eq_true, if_false, if_true]
  split_ifs
  · rfl
  · rfl

/-- An unmount run takes a session away.  It leaves it at that while sessions are open; with the last one the
keys go, and the mount if it is found. -/
theorem umountPrivate_works (works : calls.Works home dest) :
    calls.umountPrivate home w =
      if (decrement w.counter).1 > 0 then (.sessionsOpen, { w with counter := (decrement w.counter).2 })
      else
        let sigs := home.signatures w.vault.keyring
        let isMounted := ecryptfsPrivateIsMounted ⟨true, true⟩ (.unmounting home.src dest) (sigs.map Prod.fst)
          w.mounts
        (if isMounted then .umount else .failure, {
          vault := { w.vault with keyring := calls.clearKeys sigs w.vault.keyring }
          mounts := if isMounted then detach dest w.mounts else w.mounts
          counter := (decrement w.counter).2 }) := by
  have passes := fun isMounted => works.passes (K := w.vault.keyring) isMounted "umount.ecryptfs_private"
  have unmounting : isMounting "umount.ecryptfs_private" = false := by decide
  simp only [unmounting, Bool.not_false, Bool.or_true] at passes
  have fetched : fetchSig (calls.fetching home w.vault.keyring) = home.signatures w.vault.keyring := by
    rw [works.fetches]
    rfl
  obtain ⟨execl, umounts⟩ := works.umounts
  have plain : isForced [] = false := rfl
  unfold PrivateCalls.umountPrivate privateMain
  dsimp only
  simp only [passes, unmounting, fetched, works.dest, works.table, plain, Bool.not_true, Bool.false_eq_true, if_false,
    Option.getD_some, umounts]
  unfold umountCounted umountCounted.umountNow PrivateSystem.fetching PrivateCalls.system
  simp only [Bool.false_eq_true, if_false, execl, if_true]
  by_cases sessions : (decrement w.counter).1 > 0
  · simp [sessions]
  · simp only [if_neg sessions]
    cases ecryptfsPrivateIsMounted ⟨true, true⟩ (.unmounting home.src dest)
      ((home.signatures w.vault.keyring).map Prod.fst) w.mounts with
    | false => simp
    | true => simp

end Ecryptfs
