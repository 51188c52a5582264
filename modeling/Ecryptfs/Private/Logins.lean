import Ecryptfs.Passphrase.Lifecycle
import Ecryptfs.Private.Directory

/-!
# Logins and the private directory

The module for PAM works with the private directory in three places.  When a user is authenticated it puts the
keys into the keyring, unless the directory is mounted already; when a session is opened it runs
`mount.ecryptfs_private`, and when it is closed `umount.ecryptfs_private`.

The directory is to be mounted exactly while a session is open.  It is, as long as the keys are there whenever
a session is opened (`mounted_iff_keys`); they are if every session is opened right after the login it belongs
to (`mounted_of_logins`).  What can go wrong is a login that finds the directory mounted and leaves the keys
alone, and a last session that is closed, and takes the keys with it, before the new one is opened.
-/

namespace Ecryptfs

/-! ## The module for PAM -/

/-- What the calls of `pam_sm_authenticate` come to: whether there is `~/.ecryptfs/auto-mount` as far as it can
tell, the `malloc` and the table for the search, and what `Vault.authenticate` needs. -/
structure LoginCalls where
  autoMount : Bool
  malloc : Bool
  table : TableCalls
  io : PamIo
  adds : ℕ → AddCalls

/-- What the calls of `private_dir` come to: whether the file with the signatures is a regular file, whether
there is `~/.ecryptfs/auto-mount` or `~/.ecryptfs/auto-umount`, whether a process is started that becomes the
user, and the calls of the program it runs. -/
structure SessionCalls where
  sigFile : Bool
  autoFile : Bool
  starts : Bool
  run : PrivateCalls

namespace PrivateWorld

/-- `pam_sm_authenticate`, with the argument `unwrap` and the passphrase that was entered. -/
def authenticate (nss : Nss) (S : Salt) (home : PrivateHome) (calls : LoginCalls) (passphrase : Option CStr)
    (w : PrivateWorld) : PrivateWorld :=
  if calls.autoMount = false then w
  else if ecryptfsPrivateIsMounted calls.table
      (.mounting none (ecryptfsFetchPrivateMnt calls.malloc home)) none w.mounts then w
  else { w with vault := w.vault.authenticate nss S calls.io calls.adds passphrase }

/-- `private_dir`. -/
def privateDir (mount : Bool) (home : PrivateHome) (calls : SessionCalls) (w : PrivateWorld) : PrivateWorld :=
  if calls.sigFile = false then w
  else if calls.starts = false then w
  else if calls.autoFile = false then w
  else if mount then (calls.run.mountPrivate home w).2
  else (calls.run.umountPrivate home w).2

end PrivateWorld

/-- What happens: one of the tools or something else works with the wrapped passphrase and the keyring, the user
logs in, a session is opened or closed, or something else is mounted or unmounted. -/
inductive LoginOp where
  | tool (op : VaultOp)
  | login (home : PrivateHome) (calls : LoginCalls) (passphrase : Option CStr)
  | openSession (home : PrivateHome) (calls : SessionCalls)
  | closeSession (home : PrivateHome) (calls : SessionCalls)
  | elsewhere (change : List MtabEntry → List MtabEntry)

namespace LoginOp

section

variable (nss : Nss) (S : Salt)

def step (w : PrivateWorld) : LoginOp → PrivateWorld
  | tool op => { w with vault := (w.vault.step nss S op).1 }
  | login home calls passphrase => w.authenticate nss S home calls passphrase
  | openSession home calls => w.privateDir true home calls
  | closeSession home calls => w.privateDir false home calls
  | elsewhere change => { w with mounts := change w.mounts }

/-- The state after a run. -/
def after (w : PrivateWorld) (ops : List LoginOp) : PrivateWorld := ops.foldl (step nss S) w

end

/-- The number of open sessions after a step. -/
def count (n : ℕ) : LoginOp → ℕ
  | openSession _ _ => n + 1
  | closeSession _ _ => n - 1
  | _ => n

/-- The number of open sessions after a run. -/
def sessions (ops : List LoginOp) : ℕ := ops.foldl count 0

end LoginOp

open LoginOp

variable {nss : Nss} {S : Salt} {home : PrivateHome} {dest : CStr} {w : PrivateWorld} {n : ℕ}

theorem after_snoc (before : List LoginOp) (op : LoginOp) :
    after nss S w (before ++ [op]) = step nss S (after nss S w before) op := by
  unfold after
  rw [List.foldl_append]
  rfl

theorem sessions_snoc (before : List LoginOp) (op : LoginOp) :
    sessions (before ++ [op]) = count (sessions before) op := by
  unfold sessions
  rw [List.foldl_append]
  rfl

/-- The module runs the program or does nothing. -/
theorem privateDir_cases (mount : Bool) (home : PrivateHome) (calls : SessionCalls) (w : PrivateWorld) :
    w.privateDir mount home calls = w ∨ w.privateDir mount home calls =
      if mount then (calls.run.mountPrivate home w).2 else (calls.run.umountPrivate home w).2 := by
  unfold PrivateWorld.privateDir
  by_cases irregular : calls.sigFile = false
  · exact .inl (if_pos irregular)
  by_cases stuck : calls.starts = false
  · rw [if_neg irregular]
    exact .inl (if_pos stuck)
  by_cases manual : calls.autoFile = false
  · rw [if_neg irregular, if_neg stuck]
    exact .inl (if_pos manual)
  · rw [if_neg irregular, if_neg stuck, if_neg manual]
    exact .inr rfl

/-- A login leaves the mounts and the counter alone. -/
theorem authenticate_frame (home : PrivateHome) (calls : LoginCalls) (passphrase : Option CStr) (w : PrivateWorld) :
    (w.authenticate nss S home calls passphrase).mounts = w.mounts ∧
      (w.authenticate nss S home calls passphrase).counter = w.counter := by
  unfold PrivateWorld.authenticate
  split_ifs
  · exact ⟨rfl, rfl⟩
  · exact ⟨rfl, rfl⟩
  · exact ⟨rfl, rfl⟩

/-! ## Never mounted twice -/

/-- A mount of an encrypted directory. -/
def FromSource (src : CStr) (m : MtabEntry) : Prop := m.fstype = lit "ecryptfs" ∧ m.fsname = src

instance (src : CStr) : DecidablePred (FromSource src) := fun _ => inferInstanceAs (Decidable (_ ∧ _))

/-- The table can be read before a mount, and nothing else mounts the encrypted directory. -/
def LoginOp.Reads (src : CStr) : LoginOp → Prop
  | openSession home calls => home.src = src ∧ calls.run.table = ⟨true, true⟩
  | elsewhere change => ∀ mounts, (change mounts).countP (FromSource src) ≤ mounts.countP (FromSource src)
  | _ => True

theorem countP_detach_le (p : MtabEntry → Bool) (mnt : CStr) (mounts : List MtabEntry) :
    (detach mnt mounts).countP p ≤ mounts.countP p := by
  unfold detach
  rw [List.countP_reverse, ← List.countP_reverse (l := mounts)]
  exact (List.eraseP_sublist).countP_le

/-- A search for the source finds every mount of it. -/
theorem noSource_of_notMounted {src : CStr} {mnt sig : Option CStr} {mounts : List MtabEntry}
    (free : ecryptfsPrivateIsMounted ⟨true, true⟩ (.mounting (some src) mnt) sig mounts = false) :
    mounts.countP (FromSource src) = 0 := by
  rw [List.countP_eq_zero]
  intro m among isOne
  unfold ecryptfsPrivateIsMounted at free
  simp only [Bool.true_eq_false, and_false, if_false, List.any_eq_false] at free
  have isOne : FromSource src m := of_decide_eq_true isOne
  refine free m among ?_
  simp [MountQuery.matches, isOne.1, isOne.2]

theorem step_fromSource {src : CStr} {op : LoginOp} (reads : op.Reads src)
    (once : w.mounts.countP (FromSource src) ≤ 1) :
    (step nss S w op).mounts.countP (FromSource src) ≤ 1 := by
  cases op with
  | tool op => exact once
  | login home calls passphrase =>
    show (w.authenticate nss S home calls passphrase).mounts.countP _ ≤ 1
    rw [(authenticate_frame home calls passphrase w).1]
    exact once
  | elsewhere change => exact (reads w.mounts).trans once
  | openSession home calls =>
    obtain ⟨rfl, readable⟩ := reads
    show (w.privateDir true home calls).mounts.countP _ ≤ 1
    rcases privateDir_cases true home calls w with idle | ran
    · rw [idle]
      exact once
    rw [ran, if_pos rfl]
    rcases mountPrivate_mounts calls.run home w with same | ⟨⟨mnt, sig, free⟩, dir, opts, added⟩
    · rw [same]
      exact once
    · rw [readable] at free
      rw [added, List.countP_append, noSource_of_notMounted free]
      exact (Nat.zero_add _).trans_le List.countP_le_length
  | closeSession home calls =>
    show (w.privateDir false home calls).mounts.countP _ ≤ 1
    rcases privateDir_cases false home calls w with idle | ran
    · rw [idle]
      exact once
    rw [ran, if_neg Bool.false_ne_true]
    rcases umountPrivate_mounts calls.run home w with same | ⟨mnt, detached⟩
    · rw [same]
      exact once
    · rw [detached]
      exact (countP_detach_le _ _ _).trans once

/-- **The encrypted directory is never mounted twice.**  Whatever is in the files of the user and whatever the
calls come to, no run of logins and sessions leads to two mounts of it, as long as the table can be read
before each mount. -/
theorem mounted_once {src : CStr} {ops : List LoginOp} (reads : ∀ op ∈ ops, op.Reads src)
    (once : w.mounts.countP (FromSource src) ≤ 1) :
    (after nss S w ops).mounts.countP (FromSource src) ≤ 1 := by
  induction ops generalizing w with
  | nil => exact once
  | cons op ops ih =>
    exact ih (fun op' among => reads op' (List.mem_cons_of_mem op among))
      (step_fromSource (reads op List.mem_cons_self) once)

/-! ## Mounted while a session is open -/

/-- An entry at one of the places of the private directory: on the mount point, or a mount of the encrypted
directory or on what the user takes for the mount point. -/
def AtDirectory (home : PrivateHome) (dest : CStr) (m : MtabEntry) : Bool :=
  m.dir = dest || (m.fstype = lit "ecryptfs" &&
    (m.fsname = home.src || ecryptfsFetchPrivateMnt true home = some m.dir))

/-- The private directory is mounted. -/
def Mounted (home : PrivateHome) (dest : CStr) (w : PrivateWorld) : Prop :=
  ∃ m ∈ w.mounts, m.fstype = lit "ecryptfs" ∧ m.fsname = home.src ∧ m.dir = dest

/-- The keys of the signatures in the file of the user are in the keyring. -/
def KeysIn (home : PrivateHome) (w : PrivateWorld) : Prop := (home.signatures w.vault.keyring).isSome

/-- The steps of sessions are for one home, no call of theirs fails, and they are automatic; keys are taken out of
the keyring, and mounts put at the places of the directory, by nothing else. -/
def LoginOp.Works (home : PrivateHome) (dest : CStr) : LoginOp → Prop
  | openSession home' calls | closeSession home' calls =>
    home' = home ∧ calls.sigFile = true ∧ calls.starts = true ∧ calls.autoFile = true ∧
      calls.run.Works home dest
  | tool op => ∀ K, op ≠ .keyring K
  | login _ _ _ => True
  | elsewhere change =>
    ∀ mounts, (change mounts).filter (AtDirectory home dest) = mounts.filter (AtDirectory home dest)

/-- `n` sessions are open: the counter says so, and there is one mount at the places of the directory, with the
signature of the file, and the keys are there; or there is none. -/
structure SessionsKept (home : PrivateHome) (dest : CStr) (w : PrivateWorld) (n : ℕ) : Prop where
  count : counterValue w.counter = n
  none_ : n = 0 → w.mounts.filter (AtDirectory home dest) = []
  one : 0 < n → ∃ sigs opts, home.signatures w.vault.keyring = some sigs ∧
    hasmntopt ⟨dest, "ecryptfs", opts⟩ (sigName ++ sigs.1) = true ∧
    w.mounts.filter (AtDirectory home dest) = [mountEntry home.src dest opts]

/-! ### The table -/

theorem atDirectory_mountEntry (home : PrivateHome) (dest opts : CStr) :
    AtDirectory home dest (mountEntry home.src dest opts) = true := by
  simp [AtDirectory, mountEntry]

theorem SessionsKept.mounted_iff (kept : SessionsKept home dest w n) : Mounted home dest w ↔ 0 < n := by
  constructor
  · rintro ⟨m, among, isMount, source, point⟩
    by_contra none_
    have touches : m ∈ w.mounts.filter (AtDirectory home dest) :=
      List.mem_filter.mpr ⟨among, by simp [AtDirectory, point]⟩
    rw [kept.none_ (Nat.eq_zero_of_not_pos none_)] at touches
    cases touches
  · intro open_
    obtain ⟨sigs, opts, -, -, isOne⟩ := kept.one open_
    have among : mountEntry home.src dest opts ∈ w.mounts.filter (AtDirectory home dest) := by
      rw [isOne]
      exact List.mem_cons_self
    exact ⟨_, (List.mem_filter.mp among).1, rfl, rfl, rfl⟩

/-- The search before a mount finds the mount of an open session, and nothing else. -/
theorem SessionsKept.found_mounting (kept : SessionsKept home dest w n) (sig : Option CStr) :
    ecryptfsPrivateIsMounted ⟨true, true⟩ (.mounting (some home.src) (some dest)) sig w.mounts =
      decide (0 < n) := by
  have searched : ecryptfsPrivateIsMounted ⟨true, true⟩ (.mounting (some home.src) (some dest)) sig w.mounts =
      w.mounts.any ((MountQuery.mounting (some home.src) (some dest)).matches (sig.map (sigName ++ ·))) := by
    simp [ecryptfsPrivateIsMounted]
  rw [searched, Bool.eq_iff_iff, List.any_eq_true, decide_eq_true_iff]
  constructor
  · rintro ⟨m, among, isMatch⟩
    by_contra none_
    have touches : m ∈ w.mounts.filter (AtDirectory home dest) := by
      refine List.mem_filter.mpr ⟨among, ?_⟩
      simp only [MountQuery.matches, Bool.and_eq_true, decide_eq_true_eq, Bool.or_eq_true, Option.some.injEq]
        at isMatch
      rcases isMatch with ⟨isMount, source | point⟩
      · simp [AtDirectory, isMount, source]
      · simp [AtDirectory, point]
    rw [kept.none_ (Nat.eq_zero_of_not_pos none_)] at touches
    cases touches
  · intro open_
    obtain ⟨m, among, isMount, source, point⟩ := kept.mounted_iff.mpr open_
    exact ⟨m, among, by simp [MountQuery.matches, isMount, source]⟩

/-- The search before an unmount finds the mount of the last session. -/
theorem SessionsKept.found_unmounting (kept : SessionsKept home dest w n) (open_ : 0 < n) :
    ecryptfsPrivateIsMounted ⟨true, true⟩ (.unmounting home.src dest)
      ((home.signatures w.vault.keyring).map Prod.fst) w.mounts = true := by
  obtain ⟨sigs, opts, there, shown, isOne⟩ := kept.one open_
  have among : mountEntry home.src dest opts ∈ w.mounts.filter (AtDirectory home dest) := by
    rw [isOne]
    exact List.mem_cons_self
  have searched : ecryptfsPrivateIsMounted ⟨true, true⟩ (.unmounting home.src dest) (some sigs.1) w.mounts =
      w.mounts.any ((MountQuery.unmounting home.src dest).matches (some (sigName ++ sigs.1))) := by
    simp [ecryptfsPrivateIsMounted]
  rw [there, Option.map_some, searched, List.any_eq_true]
  refine ⟨_, (List.mem_filter.mp among).1, ?_⟩
  simp only [MountQuery.matches, mountEntry, decide_true, Bool.true_and, Option.all_some]
  exact shown

/-- The last mount that satisfies one condition is the only one that satisfies a weaker condition. -/
theorem filter_eraseP {α : Type} {p q : α → Bool} (implies : ∀ a, p a = true → q a = true) {l : List α} {e : α}
    (only : l.filter q = [e]) (isOne : p e = true) : (l.eraseP p).filter q = [] := by
  induction l with
  | nil => cases only
  | cons a l ih =>
    by_cases satisfies : p a = true
    · rw [List.filter_cons_of_pos (implies a satisfies)] at only
      rw [List.eraseP_cons_of_pos satisfies]
      exact (List.cons.inj only).2
    · rw [List.eraseP_cons_of_neg satisfies]
      by_cases weak : q a = true
      · rw [List.filter_cons_of_pos weak] at only
        exact absurd ((List.cons.inj only).1 ▸ isOne) satisfies
      · rw [List.filter_cons_of_neg weak] at only ⊢
        exact ih only

theorem filter_detach {opts : CStr} {mounts : List MtabEntry}
    (only : mounts.filter (AtDirectory home dest) = [mountEntry home.src dest opts]) :
    (detach dest mounts).filter (AtDirectory home dest) = [] := by
  unfold detach
  rw [List.filter_reverse, List.reverse_eq_nil_iff]
  refine filter_eraseP (e := mountEntry home.src dest opts) ?_ ?_ ?_
  · intro m point
    simp [AtDirectory, of_decide_eq_true point]
  · rw [List.filter_reverse, only]
    rfl
  · simp [mountEntry]

/-! ### The keyring -/

theorem addAuthTok_within (calls : AddCalls) (tok : PasswordTok) (sig : CStr) (K : Keyring) :
    K.Within (addAuthTokToKeyring calls tok sig K).2 := by
  unfold addAuthTokToKeyring
  rcases calls.searchError with _ | errnum
  · dsimp only
    by_cases taken : K sig ≠ none
    · rw [if_pos taken]
      exact .refl K
    rw [if_neg taken]
    rcases calls.addError with _ | errnum
    · intro sig' there
      dsimp only
      by_cases same : sig' = sig
      · rw [same, Function.update_self]
        rfl
      · rw [Function.update_of_ne same]
        exact there
    · exact .refl K
  · exact .refl K

theorem addPassphraseKey_within (nss : Nss) (calls : AddCalls) (passphrase : CStr) (salt : Salt) (K : Keyring) :
    K.Within (addPassphraseKeyToKeyring nss calls passphrase salt K).2 := by
  unfold addPassphraseKeyToKeyring
  rcases generatePassphraseAuthTok nss calls.malloc salt passphrase with rc | ⟨sig, tok⟩
  · exact .refl K
  · exact addAuthTok_within calls tok sig K

theorem Keyring.Within.trans {K K' K'' : Keyring} (first : K.Within K') (second : K'.Within K'') : K.Within K'' :=
  fun sig there => second sig (first sig there)

theorem insertWrapped_within (nss : Nss) (adds : ℕ → AddCalls) (io : ReadIo) (file : Option (List UInt8))
    (wrapping : CStr) (salt : Salt) (K : Keyring) :
    K.Within (insertWrappedPassphraseIntoKeyring nss adds io file wrapping salt K).2 := by
  unfold insertWrappedPassphraseIntoKeyring
  rcases unwrapPassphrase nss io file wrapping salt with rc | out
  · exact .refl K
  · dsimp only
    have first := addPassphraseKey_within nss (adds 0) (out.takeWhile (· ≠ 0)) saltFnek K
    split_ifs
    · exact first
    · exact first.trans (addPassphraseKey_within nss _ _ _ _)

/-- The wrapping of a cleartext passphrase leaves the keyring alone. -/
theorem wrapIfNecessary_keyring (nss : Nss) (S : Salt) (io : PamIo) (passphrase : Option CStr) (v : Vault) :
    (v.wrapPassphraseIfNecessary nss S io passphrase).2.keyring = v.keyring := by
  obtain ⟨file, cleartext, keyring⟩ := v
  unfold Vault.wrapPassphraseIfNecessary
  rcases cleartext with _ | src
  · rfl
  rcases file with _ | file
  · rcases passphrase with _ | _ | ⟨c, rest⟩
    · rfl
    · rfl
    · rfl
  · rfl

theorem vaultAuthenticate_within (nss : Nss) (S : Salt) (io : PamIo) (adds : ℕ → AddCalls)
    (passphrase : Option CStr) (v : Vault) :
    v.keyring.Within (v.authenticate nss S io adds passphrase).keyring := by
  unfold Vault.authenticate
  rcases passphrase with _ | passphrase
  · exact .refl _
  · dsimp only
    have same := wrapIfNecessary_keyring nss S io (some passphrase) v
    split_ifs
    · rw [← same]
      exact insertWrapped_within nss adds _ _ _ _ _
    · rw [same]
      exact .refl _

/-- No tool takes a key away. -/
theorem vaultStep_within (nss : Nss) (S : Salt) (v : Vault) {op : VaultOp} (tool : ∀ K, op ≠ .keyring K) :
    v.keyring.Within (v.step nss S op).1.keyring := by
  cases op with
  | wrap io args =>
    unfold Vault.step Vault.wrapMain Asked.run
    dsimp only
    rcases io.wrapAsked args with _ | rc | asked
    · exact .refl _
    · exact .refl _
    · exact .refl _
  | rewrap io args =>
    unfold Vault.step Vault.rewrapMain Asked.run
    dsimp only
    rcases io.rewrapAsked args with _ | rc | ⟨old, new⟩
    · exact .refl _
    · exact .refl _
    · dsimp only
      rcases unwrapPassphrase nss io.read v.file old S with rc | out
      · exact .refl _
      · exact .refl _
  | unwrap io args =>
    unfold Vault.step Vault.unwrapMain Asked.run
    dsimp only
    rcases io.unwrapAsked args with _ | rc | W
    · exact .refl _
    · exact .refl _
    · dsimp only
      rcases unwrapPassphrase nss io.read v.file W S with rc | out
      · exact .refl _
      · exact .refl _
  | insert io adds args =>
    unfold Vault.step Vault.insertMain Asked.run
    dsimp only
    rcases io.insertAsked args with _ | rc | W
    · exact .refl _
    · exact .refl _
    · exact insertWrapped_within nss adds io.read v.file W S v.keyring
  | login io adds passphrase => exact vaultAuthenticate_within nss S io adds passphrase v
  | change io old new =>
    have same := wrapIfNecessary_keyring nss S io new v
    unfold Vault.step Vault.chauthtok
    dsimp only
    split_ifs
    · rcases old with _ | old
      · rw [same]
        exact .refl _
      rcases new with _ | _ | ⟨c, rest⟩
      · rw [same]
        exact .refl _
      · rw [same]
        exact .refl _
      · dsimp only
        rcases unwrapPassphrase nss io.read _ old S with rc | out
        · dsimp only
          rw [same]
          exact .refl _
        · dsimp only
          rw [same]
          exact .refl _
    · rw [same]
      exact .refl _
  | leave cleartext => exact .refl _
  | keyring K => exact absurd rfl (tool K)

/-! ### The steps -/

/-- The keys of a mount stay when others are added. -/
theorem signatures_within {K K' : Keyring} (within : K.Within K') {sigs : CStr × Option CStr}
    (there : home.signatures K = some sigs) : home.signatures K' = some sigs := by
  rw [signatures_eq, Option.filter_eq_some_iff] at there ⊢
  exact ⟨there.1, within.keysThere there.2⟩

/-- Nothing changes when keys are added. -/
theorem SessionsKept.within {w' : PrivateWorld} (kept : SessionsKept home dest w n)
    (within : w.vault.keyring.Within w'.vault.keyring) (mounts : w'.mounts = w.mounts)
    (counter : w'.counter = w.counter) : SessionsKept home dest w' n where
  count := by rw [counter, kept.count]
  none_ := by
    rw [mounts]
    exact kept.none_
  one open_ := by
    obtain ⟨sigs, opts, there, shown, isOne⟩ := kept.one open_
    exact ⟨sigs, opts, signatures_within within there, shown, mounts ▸ isOne⟩

/-- A session is opened. -/
theorem SessionsKept.opens {calls : PrivateCalls} (works : calls.Works home dest) (kept : SessionsKept home dest w n)
    (few : (n : ℤ) < maxint) (keys : KeysIn home w) :
    SessionsKept home dest (calls.mountPrivate home w).2 (n + 1) := by
  obtain ⟨sigs, there⟩ := Option.isSome_iff_exists.mp keys
  have counted : counterValue (increment w.counter).2 = (n + 1 : ℕ) := by
    rw [show counterValue (increment w.counter).2 = (increment w.counter).1 from
      counterValue_bumpCounter w.counter 1, increment, bumpCounter_count, kept.count, toInt]
    unfold maxint at few
    push_cast
    omega
  rw [mountPrivate_works works there, kept.found_mounting]
  by_cases open_ : 0 < n
  · obtain ⟨sigs', opts, there', shown, isOne⟩ := kept.one open_
    rw [if_pos (decide_eq_true open_)]
    exact ⟨counted, fun zero => absurd zero (Nat.succ_ne_zero n), fun _ => ⟨sigs', opts, there', shown, isOne⟩⟩
  · have isNone := kept.none_ (Nat.eq_zero_of_not_pos open_)
    have digits := fetchSig_digits there
    rw [if_neg (by simpa using open_)]
    refine ⟨counted, fun zero => absurd zero (Nat.succ_ne_zero n), fun _ =>
      ⟨sigs, _, there, works.shown sigs.1 sigs.2 dest digits, ?_⟩⟩
    rw [List.filter_append, isNone]
    exact List.filter_cons_of_pos (atDirectory_mountEntry home dest _)

theorem counterValue_lt (text : CStr) : counterValue text < 2 ^ 31 := by
  unfold counterValue scanInt
  rcases strtol text with _ | m
  · decide
  · exact toInt_lt m

/-- A session is closed. -/
theorem SessionsKept.closes {calls : PrivateCalls} (works : calls.Works home dest) (kept : SessionsKept home dest w n)
    (open_ : 0 < n) : SessionsKept home dest (calls.umountPrivate home w).2 (n - 1) := by
  have count : (decrement w.counter).1 = (n - 1 : ℕ) := by
    have few : (n : ℤ) < 2 ^ 31 := kept.count ▸ counterValue_lt w.counter
    rw [decrement, bumpCounter_count, kept.count, toInt]
    omega
  have counted : counterValue (decrement w.counter).2 = (n - 1 : ℕ) :=
    (counterValue_bumpCounter w.counter (-1)).trans count
  obtain ⟨sigs, opts, there, shown, isOne⟩ := kept.one open_
  rw [umountPrivate_works works]
  by_cases others : (decrement w.counter).1 > 0
  · rw [if_pos others]
    exact ⟨counted, fun last => absurd last (by omega), fun _ => ⟨sigs, opts, there, shown, isOne⟩⟩
  · rw [if_neg others]
    dsimp only
    rw [kept.found_unmounting open_]
    exact ⟨counted, fun _ => filter_detach isOne, fun more => absurd more (by omega)⟩

/-- The step opens a session. -/
def LoginOp.Opens : LoginOp → Prop
  | openSession _ _ => True
  | _ => False

theorem count_of_opens {op : LoginOp} (opens : op.Opens) : count n op = n + 1 := by
  cases op with
  | openSession home calls => rfl
  | tool op => exact opens.elim
  | login home calls passphrase => exact opens.elim
  | closeSession home calls => exact opens.elim
  | elsewhere change => exact opens.elim

/-- The step closes a session. -/
def LoginOp.Closes : LoginOp → Prop
  | closeSession _ _ => True
  | _ => False

/-- Only sessions that are open are closed, and there are never more than can be counted. -/
def Paired (ops : List LoginOp) : Prop :=
  ∀ before op, before ++ [op] <+: ops →
    (op.Closes → 0 < sessions before) ∧ (op.Opens → (sessions before : ℤ) < maxint)

/-- What a run of the module does when it does not stop before. -/
theorem privateDir_runs {calls : SessionCalls} (regular : calls.sigFile = true) (starts : calls.starts = true)
    (automatic : calls.autoFile = true) (mount : Bool) (home : PrivateHome) (w : PrivateWorld) :
    w.privateDir mount home calls =
      if mount then (calls.run.mountPrivate home w).2 else (calls.run.umountPrivate home w).2 := by
  unfold PrivateWorld.privateDir
  rw [if_neg (by simp [regular]), if_neg (by simp [starts]), if_neg (by simp [automatic])]

/-- What one step keeps. -/
theorem sessionsKept_step {op : LoginOp} (kept : SessionsKept home dest w n) (works : op.Works home dest)
    (closes : op.Closes → 0 < n) (few : op.Opens → (n : ℤ) < maxint) (keys : op.Opens → KeysIn home w) :
    SessionsKept home dest (step nss S w op) (count n op) := by
  cases op with
  | tool op => exact kept.within (vaultStep_within nss S w.vault works) rfl rfl
  | login home' calls passphrase =>
    obtain ⟨mounts, counter⟩ : (w.authenticate nss S home' calls passphrase).mounts = w.mounts ∧
        (w.authenticate nss S home' calls passphrase).counter = w.counter :=
      authenticate_frame home' calls passphrase w
    refine kept.within ?_ mounts counter
    show w.vault.keyring.Within (w.authenticate nss S home' calls passphrase).vault.keyring
    unfold PrivateWorld.authenticate
    split_ifs
    · exact .refl _
    · exact .refl _
    · exact vaultAuthenticate_within nss S calls.io calls.adds passphrase w.vault
  | openSession home' calls =>
    obtain ⟨rfl, regular, starts, automatic, runs⟩ := works
    show SessionsKept home' dest (w.privateDir true home' calls) (n + 1)
    rw [privateDir_runs regular starts automatic, if_pos rfl]
    exact kept.opens runs (few trivial) (keys trivial)
  | closeSession home' calls =>
    obtain ⟨rfl, regular, starts, automatic, runs⟩ := works
    show SessionsKept home' dest (w.privateDir false home' calls) (n - 1)
    rw [privateDir_runs regular starts automatic, if_neg Bool.false_ne_true]
    exact kept.closes runs (closes trivial)
  | elsewhere change =>
    refine ⟨kept.count, fun zero => (works w.mounts).trans (kept.none_ zero), fun open_ => ?_⟩
    obtain ⟨sigs, opts, there, shown, isOne⟩ := kept.one open_
    exact ⟨sigs, opts, there, shown, (works w.mounts).trans isOne⟩

/-- A session that is opened without the keys is opened without the directory. -/
theorem not_mounted_of_no_keys (nss : Nss) (S : Salt) {op : LoginOp} (kept : SessionsKept home dest w n)
    (works : op.Works home dest) (opens : op.Opens) (noKeys : ¬ KeysIn home w) : n = 0 ∧ step nss S w op = w := by
  constructor
  · by_contra some_
    obtain ⟨sigs, opts, there, -⟩ := kept.one (Nat.pos_of_ne_zero some_)
    exact noKeys (by rw [KeysIn, there]; rfl)
  · cases op with
    | openSession home' calls =>
      obtain ⟨rfl, regular, starts, automatic, runs⟩ := works
      have missing : home'.signatures w.vault.keyring = none := Option.not_isSome_iff_eq_none.mp noKeys
      show w.privateDir true home' calls = w
      rw [privateDir_runs regular starts automatic, if_pos rfl, mountPrivate_refused runs missing]
    | tool op => exact opens.elim
    | login home' calls passphrase => exact opens.elim
    | closeSession home' calls => exact opens.elim
    | elsewhere change => exact opens.elim

/-- The steps of a run before its last one. -/
theorem works_of_earlier {before ops : List LoginOp} {op : LoginOp} (isPrefix : before ++ [op] <+: ops)
    (works : ∀ op ∈ ops, op.Works home dest) : op.Works home dest :=
  works op (isPrefix.subset (List.mem_append_right before List.mem_cons_self))

/-- What a run keeps. -/
theorem sessionsKept_after (start : SessionsKept home dest w 0) {ops : List LoginOp}
    (works : ∀ op ∈ ops, op.Works home dest) (paired : Paired ops)
    (keys : ∀ before op, before ++ [op] <+: ops → op.Opens →
      SessionsKept home dest (after nss S w before) (sessions before) → KeysIn home (after nss S w before))
    {before : List LoginOp} (isPrefix : before <+: ops) :
    SessionsKept home dest (after nss S w before) (sessions before) := by
  induction before using List.reverseRecOn with
  | nil => exact start
  | append_singleton before op ih =>
    have kept := ih ((List.prefix_append before [op]).trans isPrefix)
    rw [after_snoc, sessions_snoc]
    exact sessionsKept_step kept (works_of_earlier isPrefix works) (paired before op isPrefix).1
      (paired before op isPrefix).2 fun opens => keys before op isPrefix opens kept

/-- **When the directory is mounted exactly while a session is open.**  In a run in which no call of the sessions
fails, that is so in every state if and only if the keys are there whenever a session is opened. -/
theorem mounted_iff_keys (counter : counterValue w.counter = 0)
    (free : w.mounts.filter (AtDirectory home dest) = []) {ops : List LoginOp}
    (works : ∀ op ∈ ops, op.Works home dest) (paired : Paired ops) :
    (∀ before, before <+: ops → (Mounted home dest (after nss S w before) ↔ 0 < sessions before)) ↔
      ∀ before op, before ++ [op] <+: ops → op.Opens → KeysIn home (after nss S w before) := by
  have start : SessionsKept home dest w 0 := ⟨counter, fun _ => free, fun absurd_ => absurd absurd_ (lt_irrefl 0)⟩
  constructor
  · intro exactly
    -- a session that is opened without the keys is the only one, and there is no mount
    have keys : ∀ before op, before ++ [op] <+: ops → op.Opens →
        SessionsKept home dest (after nss S w before) (sessions before) → KeysIn home (after nss S w before) := by
      intro before op isPrefix opens kept
      by_contra noKeys
      obtain ⟨none_, same⟩ := not_mounted_of_no_keys nss S kept (works_of_earlier isPrefix works) opens noKeys
      have opened : 0 < sessions (before ++ [op]) := by
        rw [sessions_snoc, count_of_opens opens]
        exact Nat.succ_pos _
      have mounted := (exactly (before ++ [op]) isPrefix).mpr opened
      rw [after_snoc, same] at mounted
      exact absurd (kept.mounted_iff.mp mounted) (by omega)
    intro before op isPrefix opens
    exact keys before op isPrefix opens
      (sessionsKept_after start works paired keys ((List.prefix_append before [op]).trans isPrefix))
  · intro keys before isPrefix
    exact (sessionsKept_after start works paired (fun before op isPrefix opens _ => keys before op isPrefix opens)
      isPrefix).mounted_iff

/-! ## Logins with the right passphrase -/

/-- The file of the user lists the signature of the key for the contents, and may list that for the names. -/
def PrivateHome.Lists (home : PrivateHome) (fekek fnek : CStr) : Prop :=
  home.sigFile = some (fekek ++ [10]) ∨ home.sigFile = some (fekek ++ 10 :: (fnek ++ [10]))

/-- No call of a tool or a login fails, and the wrapping passphrases they use are in the list; no other
passphrase is wrapped. -/
def LoginOp.Goes (home : PrivateHome) (wrappings : List CStr) : LoginOp → Prop
  | tool op => (op.Works ∧ ∀ W ∈ op.wrappings, W ∈ wrappings) ∧ ¬ op.Wraps
  | login home' calls passphrase => home' = home ∧ calls.autoMount = true ∧ (∀ i, (calls.adds i).Succeed) ∧
      (VaultOp.login calls.io calls.adds passphrase).Works ∧ ∀ W ∈ passphrase.toList, W ∈ wrappings
  | _ => True

/-- The wrapping passphrase after a step. -/
def LoginOp.next (W : CStr) : LoginOp → CStr
  | tool op => op.next W
  | _ => W

/-- The wrapping passphrase after a run. -/
def currentWrapping (W : CStr) (ops : List LoginOp) : CStr := ops.foldl LoginOp.next W

/-- Every session is opened right after a login with the wrapping passphrase of the time. -/
def LogsIn (W : CStr) (ops : List LoginOp) : Prop :=
  ∀ before home calls, before ++ [openSession home calls] <+: ops → ∃ earlier home' calls',
    before = earlier ++ [login home' calls' (some (currentWrapping W earlier))]

theorem isHexSignature_of_generated {salt : Salt} {P : CStr} {s : PassphraseSig}
    (generated : generatePassphraseSig nss salt P = .ok s) : IsHexSignature s.sig where
  length := generatePassphraseSig_length nss generated
  digits c among := by
    have all : hexDigits.all isXDigit = true := rfl
    obtain ⟨last, isSig⟩ := generatePassphraseSig_toHex nss generated
    exact List.all_eq_true.mp all c (toHex_hexDigits _ c (isSig ▸ among))

/-- With the two keys in the keyring, the signatures are fetched. -/
theorem signatures_of_lists {fekek fnek : CStr} {K : Keyring} (isFekek : IsHexSignature fekek)
    (isFnek : IsHexSignature fnek) (lists : home.Lists fekek fnek) (there : (K fekek).isSome)
    (there' : (K fnek).isSome) : (home.signatures K).isSome := by
  rcases lists with single | both
  · have first : fetchLine (home.sigCalls K) 0 (fekek ++ [10]) = .signature fekek [] :=
      fetchLine_complete isFekek [] rfl rfl there
    have second : fetchLine (home.sigCalls K) 1 [] = .missing := rfl
    unfold PrivateHome.signatures
    rw [fetchSig_single rfl single rfl first second]
    rfl
  · have first : fetchLine (home.sigCalls K) 0 (fekek ++ 10 :: (fnek ++ [10])) = .signature fekek (fnek ++ [10]) :=
      fetchLine_complete isFekek (fnek ++ [10]) rfl rfl there
    have second : fetchLine (home.sigCalls K) 1 (fnek ++ [10]) = .signature fnek [] :=
      fetchLine_complete isFnek [] rfl rfl there'
    unfold PrivateHome.signatures fetchSig
    rw [if_neg (by simp [PrivateHome.sigCalls]), show (home.sigCalls K).file = _ from both]
    dsimp only
    rw [if_neg (by simp [PrivateHome.sigCalls]), first]
    dsimp only
    rw [second]
    rfl

section

variable {wrappings : List CStr} {i : IdealVault} {P W : CStr} {sS sF : PassphraseSig}

/-- The keys are there after they have been registered. -/
theorem registerKeys_there {adds : ℕ → AddCalls} (succeed : ∀ i, (adds i).Succeed)
    (fekek : generatePassphraseSig nss S P = .ok sS) (fnek : generatePassphraseSig nss saltFnek P = .ok sF)
    (K : Keyring) :
    ((registerKeys nss S adds P K).2 sS.sig).isSome ∧ ((registerKeys nss S adds P K).2 sF.sig).isSome := by
  have first := @addPassphraseKeyToKeyring_succeeds nss (adds 0) P saltFnek K sF (succeed 0) fnek
  have second := @addPassphraseKeyToKeyring_succeeds nss (adds 1) P S
    (Registry.register sF.sig (payloadOf sF saltFnek) K) sS (succeed 1) fekek
  have both : (registerKeys nss S adds P K).2 =
      Registry.register sS.sig (payloadOf sS S) (Registry.register sF.sig (payloadOf sF saltFnek) K) := by
    unfold registerKeys
    dsimp only
    rw [if_neg (not_lt.mpr first.1), first.2, second.2]
  rw [both]
  constructor
  · exact Option.isSome_iff_ne_none.mpr Registry.register_taken
  · exact Option.isSome_iff_ne_none.mpr (Registry.taken_register Registry.register_taken)

/-- What a login with the right passphrase leaves in the keyring. -/
theorem authenticate_there (ecb : AesEcb nss) (apart : ToldApart nss S wrappings) {v : Vault}
    (rel : VaultRel nss S wrappings v i) (holds : i.stored = .holds P W) {io : PamIo} {adds : ℕ → AddCalls}
    (works : (VaultOp.login io adds (some W)).Works) (used : W ∈ wrappings) (succeed : ∀ i, (adds i).Succeed)
    (fekek : generatePassphraseSig nss S P = .ok sS) (fnek : generatePassphraseSig nss saltFnek P = .ok sF) :
    ((v.authenticate nss S io adds (some W)).keyring sS.sig).isSome ∧
      ((v.authenticate nss S io adds (some W)).keyring sF.sig).isSome := by
  have isUsed : ∀ W' ∈ (VaultOp.login io adds (some W)).wrappings, W' ∈ wrappings :=
    fun W' isOne => List.mem_singleton.mp isOne ▸ used
  have same := (vault_step ecb apart v i (.login io adds (some W)) rel ⟨works, isUsed⟩).1.keyring
  have idle : i.wrapCleartext (some W) = (true, i) := by
    unfold IdealVault.wrapCleartext
    rw [holds]
    rcases i.cleartext with _ | src
    · rfl
    · rfl
  have opens : i.stored.opened W = some P := by
    rw [holds]
    exact if_pos rfl
  have registered : (i.step nss S (.login io adds (some W))).1.keyring = (registerKeys nss S adds P i.keyring).2 := by
    unfold IdealVault.step IdealVault.insert
    dsimp only
    rw [idle]
    dsimp only
    rw [if_pos rfl, opens]
  rw [show (v.authenticate nss S io adds (some W)).keyring = _ from same.trans registered]
  exact registerKeys_there succeed fekek fnek i.keyring

/-- The vault of a program that leaves the wrapped passphrase alone. -/
theorem VaultRel.withKeyring {v : Vault} (rel : VaultRel nss S wrappings v i) (K : Keyring) :
    VaultRel nss S wrappings { v with keyring := K } { i with keyring := K } :=
  ⟨rel.on, rel.cleartext, rfl, rel.among⟩

/-- The file holds the passphrase, wrapped in what is current. -/
def Holds (nss : Nss) (S : Salt) (wrappings : List CStr) (P W : CStr) (v : Vault) : Prop :=
  ∃ i, VaultRel nss S wrappings v i ∧ i.stored = .holds P W

/-- What one step keeps of the wrapped passphrase. -/
theorem holds_step (ecb : AesEcb nss) (apart : ToldApart nss S wrappings)
    (holds : Holds nss S wrappings P W w.vault) {op : LoginOp} (goes : op.Goes home wrappings) :
    Holds nss S wrappings P (op.next W) (step nss S w op).vault := by
  obtain ⟨i, rel, stored⟩ := id holds
  have on := rel.on
  rw [stored] at on
  obtain ⟨-, fits, nonempty, -⟩ := on
  cases op with
  | tool op =>
    obtain ⟨works, keeps⟩ := goes
    exact ⟨_, (vault_step ecb apart w.vault i op rel works).1, step_holds nss S fits nonempty stored keeps⟩
  | login home' calls passphrase =>
    obtain ⟨-, -, -, works, used⟩ := goes
    show Holds nss S wrappings P W (w.authenticate nss S home' calls passphrase).vault
    unfold PrivateWorld.authenticate
    split_ifs
    · exact holds
    · exact holds
    · have keeps : ¬ (VaultOp.login calls.io calls.adds passphrase).Wraps := id
      exact ⟨_, (vault_step ecb apart w.vault i (.login calls.io calls.adds passphrase) rel ⟨works, used⟩).1,
        step_holds nss S fits nonempty stored keeps⟩
  | openSession home' calls =>
    show Holds nss S wrappings P W (w.privateDir true home' calls).vault
    rcases privateDir_cases true home' calls w with idle | ran
    · rw [idle]
      exact holds
    · rw [ran]
      exact holds
  | closeSession home' calls =>
    show Holds nss S wrappings P W (w.privateDir false home' calls).vault
    rcases privateDir_cases false home' calls w with idle | ran
    · rw [idle]
      exact holds
    · rw [ran]
      exact ⟨_, rel.withKeyring _, stored⟩
  | elsewhere change => exact holds

theorem holds_after (ecb : AesEcb nss) (apart : ToldApart nss S wrappings)
    (holds : Holds nss S wrappings P W w.vault) {ops : List LoginOp} (goes : ∀ op ∈ ops, op.Goes home wrappings) :
    Holds nss S wrappings P (currentWrapping W ops) (after nss S w ops).vault := by
  induction ops generalizing w W with
  | nil => exact holds
  | cons op ops ih =>
    exact ih (holds_step ecb apart holds (goes op List.mem_cons_self))
      fun op' among => goes op' (List.mem_cons_of_mem op among)

/-- A login is not kept from adding the keys by a directory that is not there. -/
theorem not_seen (free : w.mounts.filter (AtDirectory home dest) = []) (malloc : Bool) (table : TableCalls) :
    ecryptfsPrivateIsMounted table (.mounting none (ecryptfsFetchPrivateMnt malloc home)) none w.mounts = false := by
  have sameMnt : ∀ mnt, ecryptfsFetchPrivateMnt malloc home = some mnt →
      ecryptfsFetchPrivateMnt true home = some mnt := by
    intro mnt fetched
    cases malloc with
    | true => exact fetched
    | false =>
      unfold ecryptfsFetchPrivateMnt at fetched ⊢
      rcases file : home.mntFile with _ | content
      · rw [file] at fetched
        exact fetched
      · rw [file] at fetched
        cases fetched
  unfold ecryptfsPrivateIsMounted
  rw [if_neg (by simp)]
  split_ifs
  · rfl
  rw [List.any_eq_false]
  intro m among isMatch
  simp only [MountQuery.matches, Bool.and_eq_true, decide_eq_true_eq, Bool.or_eq_true, reduceCtorEq, false_or]
    at isMatch
  have touches : m ∈ w.mounts.filter (AtDirectory home dest) :=
    List.mem_filter.mpr ⟨among, by simp [AtDirectory, isMatch.1, sameMnt m.dir isMatch.2]⟩
  rw [free] at touches
  cases touches

/-- **The directory of a user who logs in.**  If no call fails and every session is opened right after a login with
the wrapping passphrase of the time, the directory is mounted exactly while a session is open, over any
changes of that passphrase. -/
theorem mounted_of_logins (ecb : AesEcb nss) (apart : ToldApart nss S wrappings)
    (counter : counterValue w.counter = 0) (free : w.mounts.filter (AtDirectory home dest) = [])
    (holds : Holds nss S wrappings P W w.vault) (fekek : generatePassphraseSig nss S P = .ok sS)
    (fnek : generatePassphraseSig nss saltFnek P = .ok sF) (lists : home.Lists sS.sig sF.sig)
    {ops : List LoginOp} (works : ∀ op ∈ ops, op.Works home dest) (goes : ∀ op ∈ ops, op.Goes home wrappings)
    (paired : Paired ops) (logsIn : LogsIn W ops) {before : List LoginOp} (isPrefix : before <+: ops) :
    Mounted home dest (after nss S w before) ↔ 0 < sessions before := by
  have start : SessionsKept home dest w 0 := ⟨counter, fun _ => free, fun absurd_ => absurd absurd_ (lt_irrefl 0)⟩
  refine (sessionsKept_after start works paired (fun before op isPrefix opens kept => ?_) isPrefix).mounted_iff
  by_cases open_ : 0 < sessions before
  · obtain ⟨sigs, opts, there, -⟩ := kept.one open_
    rw [KeysIn, there]
    rfl
  cases op with
  | tool op => exact opens.elim
  | login home' calls passphrase => exact opens.elim
  | closeSession home' calls => exact opens.elim
  | elsewhere change => exact opens.elim
  | openSession home' calls =>
    -- nobody has the directory mounted, so the login has added the keys
    obtain ⟨earlier, home'', calls', rfl⟩ := logsIn before home' calls isPrefix
    have inOps : earlier ++ [login home'' calls' (some (currentWrapping W earlier))] <+: ops :=
      (List.prefix_append _ _).trans isPrefix
    have isStep := inOps.subset (List.mem_append_right earlier List.mem_cons_self)
    obtain ⟨rfl, automatic, succeed, readable, used⟩ := goes _ isStep
    obtain ⟨i, rel, stored⟩ := holds_after ecb apart holds fun op among =>
      goes op (((List.prefix_append _ _).trans inOps).subset among)
    have nothing := kept.none_ (Nat.eq_zero_of_not_pos open_)
    rw [after_snoc] at nothing ⊢
    generalize after nss S w earlier = w' at nothing rel ⊢
    generalize currentWrapping W earlier = W' at nothing rel stored readable used ⊢
    change (w'.authenticate nss S home'' calls' (some W')).mounts.filter _ = [] at nothing
    rw [(authenticate_frame home'' calls' (some W') w').1] at nothing
    have added := authenticate_there ecb apart rel stored readable (used W' (List.mem_singleton.mpr rfl)) succeed
      fekek fnek
    show KeysIn home'' (w'.authenticate nss S home'' calls' (some W'))
    unfold PrivateWorld.authenticate KeysIn
    rw [if_neg (by simp [automatic]), if_neg (by simp [not_seen nothing])]
    exact signatures_of_lists (isHexSignature_of_generated fekek) (isHexSignature_of_generated fnek) lists added.1
      added.2

end

/-! ## A user -/

/-- The options of a mount contain its signature. -/
theorem hasmntopt_mountOptionText {fekek : CStr} (digits : ∀ c ∈ fekek, isXDigit c = true) (fnek : Option CStr)
    (dir : CStr) : hasmntopt ⟨dir, "ecryptfs", mountOptionText (some fekek) fnek⟩ (sigName ++ fekek) = true := by
  have noComma : 44 ∉ sigName ++ fekek := by
    rw [List.mem_append, not_or]
    exact ⟨by decide, fun among => absurd (digits 44 among) (by decide)⟩
  have comma : lit ",ecryptfs_sig=" = 44 :: sigName := by decide
  have isOption : sigName ++ fekek ∈ (mountOptionText (some fekek) fnek).splitOn 44 := by
    rw [mountOptionText_some, comma, List.append_assoc, List.append_assoc, List.append_assoc, List.cons_append,
      List.splitOn_append_cons_self, ← List.append_assoc, List.mem_append]
    right
    rcases fnek with _ | fnek
    · simp only [Option.isSome_none, Bool.false_eq_true, if_false, Option.getD_none]
      rw [show lit "" ++ lit "" = [] from rfl, List.append_nil, List.splitOn_eq_singleton noComma]
      exact List.mem_cons_self
    · have comma' : lit ",ecryptfs_fnek_sig=" = 44 :: lit "ecryptfs_fnek_sig=" := by decide
      simp only [Option.isSome_some, if_true, Option.getD_some, comma', List.cons_append]
      rw [List.splitOn_append_cons_self, List.splitOn_eq_singleton noComma]
      exact List.mem_cons_self
  unfold hasmntopt
  rw [List.any_eq_true]
  exact ⟨_, isOption, by simp⟩

/-- Prefixes of a list with the element behind them. -/
theorem forall_prefix {α : Type} {Q : List α → α → Prop} {l : List α}
    (all : ∀ k, ∀ inside : k < l.length, Q (l.take k) l[k]) : ∀ before a, before ++ [a] <+: l → Q before a := by
  rintro before a ⟨rest, rfl⟩
  have isOne := all before.length (by simp)
  simpa using isOne

/-- A user with one signature, that of the passphrase `secret`. -/
def someHome : PrivateHome where
  uid := 1000
  name := "u"
  pwDir := "/home/u"
  mntFile := none
  sigFile := some "7474747474747474\n"

/-- Nothing fails, and the table shows the options of a mount as they were given. -/
def someCalls : PrivateCalls where
  sys := {}
  malloc := true
  sigs := someHome.sigCalls fun _ => none
  chdir _ := some ⟨true, true, 1000, some "/home/u/Private"⟩
  table := ⟨true, true⟩
  shown opts := opts
  unlinkKey _ := true
  umount := true

theorem someCalls_works : someCalls.Works someHome "/home/u/Private" where
  starts := ⟨rfl, rfl, rfl, rfl⟩
  mounts := ⟨rfl, rfl, rfl, rfl⟩
  umounts := ⟨rfl, rfl⟩
  fetches _ := rfl
  dest := rfl
  table := rfl
  username := by decide
  shown _ fnek dir digits := hasmntopt_mountOptionText digits fnek dir

def someLogin (passphrase : CStr) : LoginOp :=
  .login someHome ⟨true, true, ⟨true, true⟩, ⟨⟨true, some 64, true, writesAll⟩, .complete, writesAll,
    .replicate 16 170⟩, fun _ => ⟨true, none, none⟩⟩ (some passphrase)

def someOpen : LoginOp := .openSession someHome ⟨true, true, true, someCalls⟩

def someClose : LoginOp := .closeSession someHome ⟨true, true, true, someCalls⟩

/-- Two sessions, with a change of the wrapping passphrase between them. -/
def twoLogins : List LoginOp :=
  [someLogin "old", someOpen, .tool (.rewrap plainIo ["file", "old", "new"]), someLogin "new", someOpen, someClose,
    someClose]

theorem twoLogins_works : ∀ op ∈ twoLogins, op.Works someHome "/home/u/Private" := by
  have session : someOpen.Works someHome "/home/u/Private" ∧ someClose.Works someHome "/home/u/Private" :=
    ⟨⟨rfl, rfl, rfl, rfl, someCalls_works⟩, ⟨rfl, rfl, rfl, rfl, someCalls_works⟩⟩
  intro op among
  fin_cases among
  · trivial
  · exact session.1
  · intro K same
    cases same
  · trivial
  · exact session.1
  · exact session.2
  · exact session.2

theorem twoLogins_paired : Paired twoLogins := by
  refine forall_prefix fun k inside => ?_
  match k, inside with
  | 0, _ => exact ⟨False.elim, False.elim⟩
  | 1, _ => exact ⟨False.elim, fun _ => by decide⟩
  | 2, _ => exact ⟨False.elim, False.elim⟩
  | 3, _ => exact ⟨False.elim, False.elim⟩
  | 4, _ => exact ⟨False.elim, fun _ => by decide⟩
  | 5, _ => exact ⟨fun _ => by decide, False.elim⟩
  | 6, _ => exact ⟨fun _ => by decide, False.elim⟩

theorem twoLogins_goes : ∀ op ∈ twoLogins, op.Goes someHome [lit "old", lit "new"] := by
  intro op among
  have login : ∀ W ∈ [lit "old", lit "new"], (someLogin W).Goes someHome [lit "old", lit "new"] := by
    intro W used
    refine ⟨rfl, rfl, fun _ => ⟨rfl, rfl, rfl⟩, ⟨rfl, writesAll_works,
      ⟨⟨64, rfl, le_rfl⟩, writesAll_works.complete⟩, rfl, rfl, writesAll_works⟩, fun W' isOne => ?_⟩
    rw [List.mem_singleton.mp isOne]
    exact used
  fin_cases among
  · exact login _ (by decide)
  · trivial
  · exact ⟨⟨⟨rfl, writesAll_works⟩, by decide⟩, id⟩
  · exact login _ (by decide)
  · trivial
  · trivial
  · trivial

theorem twoLogins_logsIn : LogsIn "old" twoLogins := by
  intro before home calls isPrefix
  have opened : ∀ before op, before ++ [op] <+: twoLogins → ∀ home calls, op = openSession home calls →
      ∃ earlier home' calls', before = earlier ++ [login home' calls' (some (currentWrapping "old" earlier))] := by
    refine forall_prefix fun k inside home calls isOpen => ?_
    match k, inside with
    | 0, _ => cases isOpen
    | 1, _ => exact ⟨[], _, _, rfl⟩
    | 2, _ => cases isOpen
    | 3, _ => cases isOpen
    | 4, _ => exact ⟨twoLogins.take 3, _, _, rfl⟩
    | 5, _ => cases isOpen
    | 6, _ => cases isOpen
  exact opened before _ isPrefix home calls rfl

/-- The state before there is a file. -/
def emptyWorld : PrivateWorld := ⟨secretVault, [], []⟩

theorem mounted_once_twoLogins :
    (after lastByteNss (.replicate 8 0) emptyWorld twoLogins).mounts.countP (FromSource "/home/u/.Private") ≤ 1 := by
  refine mounted_once (fun op among => ?_) (Nat.zero_le 1)
  fin_cases among
  · trivial
  · exact ⟨by decide, rfl⟩
  · trivial
  · trivial
  · exact ⟨by decide, rfl⟩
  · trivial
  · trivial

theorem mounted_iff_keys_twoLogins :
    (∀ before, before <+: twoLogins → (Mounted someHome "/home/u/Private"
        (after lastByteNss (.replicate 8 0) emptyWorld before) ↔ 0 < sessions before)) ↔
      ∀ before op, before ++ [op] <+: twoLogins → op.Opens →
        KeysIn someHome (after lastByteNss (.replicate 8 0) emptyWorld before) :=
  mounted_iff_keys (by decide) rfl twoLogins_works twoLogins_paired

theorem mounted_of_logins_twoLogins : Mounted someHome "/home/u/Private"
    (after lastByteNss (.replicate 8 0) emptyWorld (twoLogins.take 5)) ↔ 0 < sessions (twoLogins.take 5) := by
  have fekek := generatePassphraseSig_lastByteNss (lit "secret") (.replicate 8 0) (b := 116) (by decide) (by decide)
  have fnek := generatePassphraseSig_lastByteNss (lit "secret") saltFnek (b := 116) (by decide) (by decide)
  have holds : Holds lastByteNss (.replicate 8 0) [lit "old", lit "new"] "secret" "old" emptyWorld.vault := by
    unfold emptyWorld Holds
    dsimp only
    refine ⟨⟨.holds "secret" "old", none, fun _ => none⟩, ?_, ?_⟩
    · exact vaultRel_secretVault
    · rfl
  have lists : someHome.Lists (toHex (List.replicate 8 116)) (toHex (List.replicate 8 116)) := .inl (by decide)
  have counter : counterValue emptyWorld.counter = 0 := by decide
  have free : emptyWorld.mounts.filter (AtDirectory someHome "/home/u/Private") = [] := rfl
  exact mounted_of_logins (w := emptyWorld) aesEcb_lastByteNss toldApart_lastByteNss counter free holds fekek
    fnek lists twoLogins_works twoLogins_goes twoLogins_paired twoLogins_logsIn (List.take_prefix 5 twoLogins)

end Ecryptfs
