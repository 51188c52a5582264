import Mathlib.Data.Finset.Basic
import Mathlib.Data.List.TakeWhile
import Ecryptfs.CString

/-!
# Unlinking the keys of a mount

`umount.ecryptfs` removes the keys of a mount from the user keyring.  It finds their signatures by
searching the text of the mount options for `ecryptfs_sig=` and `ecryptfs_fnek_sig=`, wherever they
stand, and looks at the first place only; without a place for the first of them it compares a null
pointer.
-/

namespace Ecryptfs

/-- `strstr`: the text from the first occurrence on. -/
def textFrom (haystack needle : CStr) : Option CStr :=
  haystack.tails.find? fun t => needle.isPrefixOf t

/-- An entry of the mount table. -/
structure Mntent where
  mntDir : CStr
  mntType : CStr
  mntOpts : CStr
  deriving DecidableEq

/-- `hasmntopt`: an option of the list is the given one, with or without a value. -/
def hasmntopt (e : Mntent) (opt : CStr) : Bool :=
  (e.mntOpts.splitOn 44).any fun o => o = opt || (opt ++ [61]).isPrefixOf o

/-- `get_mount_opt_value`: what stands behind the first occurrence of a name, up to a comma. -/
def getMountOptValue (mntOpts name : CStr) : Except ℤ CStr :=
  if name.getLast? ≠ some 61 then .error einval
  else match textFrom mntOpts name with
    | none => .error einval
    | some nameStart => .ok ((nameStart.drop name.length).takeWhile (· ≠ 44))

/-- `ecryptfs_remove_auth_tok_from_keyring`, on the descriptions of the keys in the user keyring; a key
that is found can be unlinked. -/
def removeAuthTok (sig : CStr) (ring : Finset CStr) : ℤ × Finset CStr :=
  if sig ∈ ring then (0, ring.erase sig) else (enokey, ring)

/-- The removal of a key that may be missing. -/
def removeSig (sig : CStr) (ring : Finset CStr) : ℤ × Finset CStr :=
  let removed := removeAuthTok sig ring
  (if removed.1 = enokey then 0 else removed.1, removed.2)

def sigName : CStr := "ecryptfs_sig="
def fnekSigName : CStr := "ecryptfs_fnek_sig="

/-- The part of `unlink_keys_from_keyring` behind the search in the mount table; the result is `none`
when a null pointer is compared. -/
def unlinkEntry (e : Mntent) (ring : Finset CStr) : Option (ℤ × Finset CStr) :=
  match getMountOptValue e.mntOpts sigName, getMountOptValue e.mntOpts fnekSigName with
  | .error rc, .error _ => some (rc, ring)
  | .error _, .ok _ => none
  | .ok fekek, .error _ => some (removeSig fekek ring)
  | .ok fekek, .ok fnek =>
    let fekekRemoved := removeSig fekek ring
    if fekek = fnek then some fekekRemoved
    else
      let fnekRemoved := removeSig fnek fekekRemoved.2
      some (if fekekRemoved.1 ≠ 0 then fekekRemoved.1 else fnekRemoved.1, fnekRemoved.2)

/-- `unlink_keys_from_keyring`: its code and the keyring, for a mount table that may be missing. -/
def unlinkKeysFromKeyring (mtab : Option (List Mntent)) (mntPoint : CStr) (ring : Finset CStr) :
    Option (ℤ × Finset CStr) :=
  match mtab with
  | none => some (einval, ring)
  | some entries =>
    match entries.find? fun e => e.mntType = lit "ecryptfs" ∧ e.mntDir = mntPoint with
    | none => some (einval, ring)
    | some e => if !hasmntopt e "ecryptfs_unlink_sigs" then some (0, ring) else unlinkEntry e ring

/-! ## Searching lists of options -/

/-- What stands behind the first occurrence of a name in one option. -/
def valueBehind (name option : CStr) : Option CStr := (textFrom option name).map (·.drop name.length)

/-- What stands behind the first occurrence of a name in a list of options. -/
def firstValue (name : CStr) (options : List CStr) : Option CStr := options.findSome? (valueBehind name)

theorem textFrom_nil {needle : CStr} (nonempty : needle ≠ []) : textFrom [] needle = none := by
  cases needle with
  | nil => exact absurd rfl nonempty
  | cons c needle => rfl

theorem textFrom_cons (needle : CStr) (c : UInt8) (s : CStr) :
    textFrom (c :: s) needle =
      if needle.isPrefixOf (c :: s) then some (c :: s) else textFrom s needle := by
  unfold textFrom
  rw [List.tails_cons, List.find?_cons]
  cases needle.isPrefixOf (c :: s) <;> rfl

theorem textFrom_eq_some {s needle t : CStr} (found : textFrom s needle = some t) :
    needle <+: t ∧ t <:+ s := by
  unfold textFrom at found
  have isPrefix : needle.isPrefixOf t = true := List.find?_some found
  exact ⟨List.isPrefixOf_iff_prefix.mp isPrefix,
    (List.mem_tails _ _).mp (List.mem_of_find?_eq_some found)⟩

/-- A text without the separator lies in front of it if it begins there. -/
theorem prefix_append_cons_iff {c : UInt8} {needle : CStr} (absent : c ∉ needle) (s rest : CStr) :
    needle <+: s ++ c :: rest ↔ needle <+: s := by
  constructor
  · intro isPrefix
    rcases List.prefix_or_prefix_of_prefix isPrefix (List.prefix_append s (c :: rest)) with inside | longer
    · exact inside
    · obtain ⟨more, rfl⟩ := longer
      rw [List.prefix_append_right_inj] at isPrefix
      rcases more with _ | ⟨d, more⟩
      · rw [List.append_nil]
      · obtain ⟨same, -⟩ := List.cons_prefix_cons.mp isPrefix
        rw [same] at absent
        exact absurd (by simp) absent
  · intro isPrefix
    exact isPrefix.trans (List.prefix_append s (c :: rest))

/-- The first occurrence in two texts with a separator between them lies in the first text if there
is one. -/
theorem textFrom_append_cons {c : UInt8} {needle : CStr} (absent : c ∉ needle) (nonempty : needle ≠ [])
    (s rest : CStr) :
    textFrom (s ++ c :: rest) needle =
      ((textFrom s needle).map (· ++ c :: rest)).or (textFrom rest needle) := by
  induction s with
  | nil =>
    have skipped : ¬ needle.isPrefixOf (c :: rest) = true := by
      rw [List.isPrefixOf_iff_prefix]
      intro isPrefix
      have inNil := (prefix_append_cons_iff absent [] rest).mp isPrefix
      exact nonempty (List.prefix_nil.mp inNil)
    rw [List.nil_append, textFrom_cons, if_neg skipped, textFrom_nil nonempty, Option.map_none,
      Option.none_or]
  | cons d s ih =>
    have same : needle.isPrefixOf (d :: s ++ c :: rest) = needle.isPrefixOf (d :: s) := by
      rw [Bool.eq_iff_iff, List.isPrefixOf_iff_prefix, List.isPrefixOf_iff_prefix]
      exact prefix_append_cons_iff absent (d :: s) rest
    rw [List.cons_append] at same ⊢
    rw [textFrom_cons, textFrom_cons, same, ih]
    split <;> rfl

theorem takeWhile_notMem {c : UInt8} {s : CStr} (absent : c ∉ s) : s.takeWhile (· ≠ c) = s := by
  rw [List.takeWhile_eq_self_iff]
  intro d among
  rw [decide_eq_true_iff]
  rintro rfl
  exact absent among

/-- What is cut out of the text of a list of options is what stands behind the name in the list. -/
theorem textFrom_options {name : CStr} (absent : 44 ∉ name) (nonempty : name ≠ [])
    {options : List CStr} (whole : ∀ o ∈ options, 44 ∉ o) :
    (textFrom ([44].intercalate options) name).map
        (fun start => (start.drop name.length).takeWhile (· ≠ 44)) = firstValue name options := by
  induction options with
  | nil => rw [List.intercalate_nil, textFrom_nil nonempty, Option.map_none, firstValue, List.findSome?_nil]
  | cons o options ih =>
    have here : 44 ∉ o := whole o List.mem_cons_self
    have inside : ∀ t, textFrom o name = some t → 44 ∉ t.drop name.length := fun t found among =>
      here ((textFrom_eq_some found).2.subset (List.mem_of_mem_drop among))
    rw [firstValue, List.findSome?_cons]
    rcases options with _ | ⟨u, options⟩
    · rw [List.intercalate_singleton, valueBehind]
      cases found : textFrom o name with
      | none => rfl
      | some t =>
        rw [Option.map_some, Option.map_some, takeWhile_notMem (inside t found)]
    · have later := ih fun v among => whole v (List.mem_cons_of_mem o among)
      rw [List.intercalate_cons_cons, List.append_assoc, List.singleton_append,
        textFrom_append_cons absent nonempty, valueBehind]
      cases found : textFrom o name with
      | none =>
        rw [Option.map_none, Option.none_or, Option.map_none]
        exact later
      | some t =>
        have long : name.length ≤ t.length := (textFrom_eq_some found).1.length_le
        rw [Option.map_some, Option.some_or, Option.map_some, Option.map_some,
          List.drop_append_of_le_length long,
          List.takeWhile_append_of_pos fun d among => by
            rw [decide_eq_true_iff]
            rintro rfl
            exact inside t found among]
        simp

theorem getMountOptValue_options {name : CStr} (ends : name.getLast? = some 61) (absent : 44 ∉ name)
    {options : List CStr} (whole : ∀ o ∈ options, 44 ∉ o) :
    getMountOptValue ([44].intercalate options) name =
      match firstValue name options with
      | none => .error einval
      | some value => .ok value := by
  have nonempty : name ≠ [] := by
    rintro rfl
    cases ends
  rw [← textFrom_options absent nonempty whole, getMountOptValue, if_neg (not_not.mpr ends)]
  cases textFrom ([44].intercalate options) name <;> rfl

/-! ## The keys that are removed -/

/-- A signature that an option of the list gives. -/
def IsSignature (options : List CStr) (sig : CStr) : Prop :=
  sigName ++ sig ∈ options ∨ fnekSigName ++ sig ∈ options

/-- The run with the given mount table completes and removes from every keyring exactly the keys with
the signatures of the options. -/
def UnlinksSignatures (mtab : List Mntent) (mntPoint : CStr) (options : List CStr) : Prop :=
  ∀ ring, ∃ rc after, unlinkKeysFromKeyring (some mtab) mntPoint ring = some (rc, after) ∧
    ∀ sig, sig ∈ after ↔ sig ∈ ring ∧ ¬ IsSignature options sig

/-- The first occurrences of the two names give all signatures and nothing else, and the name of the
second one does not occur alone. -/
structure FirstOccurrencesSuffice (options : List CStr) : Prop where
  notAlone : (∃ o ∈ options, strstr o fnekSigName) → ∃ o ∈ options, strstr o sigName
  genuine : ∀ value, firstValue sigName options = some value ∨ firstValue fnekSigName options = some value →
    IsSignature options value
  complete : ∀ sig, IsSignature options sig →
    firstValue sigName options = some sig ∨ firstValue fnekSigName options = some sig

theorem mem_removeSig (sig key : CStr) (ring : Finset CStr) :
    key ∈ (removeSig sig ring).2 ↔ key ∈ ring ∧ key ≠ sig := by
  have result : (removeSig sig ring).2 = ring.erase sig := by
    unfold removeSig removeAuthTok
    by_cases present : sig ∈ ring
    · rw [if_pos present]
    · rw [if_neg present, Finset.erase_eq_of_notMem present]
  rw [result, Finset.mem_erase, and_comm]

/-- What is removed, by the first occurrences of the names. -/
theorem unlinkEntry_spec {e : Mntent} {options : List CStr} (isText : e.mntOpts = [44].intercalate options)
    (whole : ∀ o ∈ options, 44 ∉ o) (ring : Finset CStr) :
    ((firstValue fnekSigName options ≠ none → firstValue sigName options ≠ none) ∧
      ∃ rc after, unlinkEntry e ring = some (rc, after) ∧
        ∀ key, key ∈ after ↔ key ∈ ring ∧ ¬ (firstValue sigName options = some key ∨
          firstValue fnekSigName options = some key)) ∨
    (unlinkEntry e ring = none ∧ firstValue sigName options = none ∧
      firstValue fnekSigName options ≠ none) := by
  have fekekFound : getMountOptValue e.mntOpts sigName = _ :=
    isText ▸ getMountOptValue_options (by decide) (by decide) whole
  have fnekFound : getMountOptValue e.mntOpts fnekSigName = _ :=
    isText ▸ getMountOptValue_options (by decide) (by decide) whole
  unfold unlinkEntry
  rw [fekekFound, fnekFound]
  cases firstValue sigName options with
  | none =>
    cases firstValue fnekSigName options with
    | none => exact .inl ⟨id, _, ring, rfl, by simp⟩
    | some fnek => exact .inr ⟨rfl, rfl, by simp⟩
  | some fekek =>
    refine .inl ⟨fun _ => Option.some_ne_none fekek, ?_⟩
    cases firstValue fnekSigName options with
    | none =>
      refine ⟨_, (removeSig fekek ring).2, rfl, fun key => ?_⟩
      rw [mem_removeSig]
      simp [eq_comm]
    | some fnek =>
      by_cases same : fekek = fnek
      · simp only [if_pos same]
        refine ⟨_, (removeSig fekek ring).2, rfl, fun key => ?_⟩
        rw [mem_removeSig]
        simp [same, eq_comm]
      · simp only [if_neg same]
        refine ⟨_, _, rfl, fun key => ?_⟩
        rw [mem_removeSig, mem_removeSig]
        simp only [Option.some.injEq, not_or, and_assoc]
        exact and_congr_right fun _ => and_congr ne_comm ne_comm

theorem textFrom_ne_none_iff {s needle : CStr} : textFrom s needle ≠ none ↔ strstr s needle := by
  unfold textFrom strstr
  rw [← Option.isSome_iff_ne_none, List.find?_isSome, List.any_eq_true]

theorem firstValue_ne_none_iff {name : CStr} {options : List CStr} :
    firstValue name options ≠ none ↔ ∃ o ∈ options, strstr o name := by
  rw [firstValue, ne_eq, List.findSome?_eq_none_iff]
  push Not
  simp only [valueBehind, ne_eq, Option.map_eq_none_iff, ← textFrom_ne_none_iff]

/-- The options that the program is called for have the option that asks for the removal. -/
theorem hasmntopt_options {e : Mntent} {options : List CStr} {opt : CStr}
    (isText : e.mntOpts = [44].intercalate options) (whole : ∀ o ∈ options, 44 ∉ o)
    (given : opt ∈ options) : hasmntopt e opt = true := by
  have nonempty : options ≠ [] := List.ne_nil_of_mem given
  rw [hasmntopt, isText, List.splitOn_intercalate 44 whole nonempty, List.any_eq_true]
  exact ⟨opt, given, by simp⟩

/-- The keys of a mount are removed, and no others, if and only if the first occurrences of the two
names in its options give all its signatures and nothing else. -/
theorem unlinksSignatures_iff (mtab : List Mntent) (mntPoint : CStr) (e : Mntent)
    (options : List CStr)
    (entry : (mtab.find? fun e => e.mntType = lit "ecryptfs" ∧ e.mntDir = mntPoint) = some e)
    (isText : e.mntOpts = [44].intercalate options) (whole : ∀ o ∈ options, 44 ∉ o)
    (asked : lit "ecryptfs_unlink_sigs" ∈ options) :
    UnlinksSignatures mtab mntPoint options ↔ FirstOccurrencesSuffice options := by
  have runs : ∀ ring, unlinkKeysFromKeyring (some mtab) mntPoint ring = unlinkEntry e ring := by
    intro ring
    simp only [unlinkKeysFromKeyring, entry, hasmntopt_options isText whole asked]
    rfl
  constructor
  · intro unlinks
    have removed : ∀ sig, (firstValue fnekSigName options ≠ none → firstValue sigName options ≠ none) ∧
        (IsSignature options sig ↔
          firstValue sigName options = some sig ∨ firstValue fnekSigName options = some sig) := by
      intro sig
      -- the keyring with this key alone
      obtain ⟨rc, after, run, exact⟩ := unlinks {sig}
      rw [runs] at run
      rcases unlinkEntry_spec isText whole {sig} with ⟨notAlone, rc', after', run', spec⟩ | ⟨crash, -⟩
      · rw [run, Option.some.injEq, Prod.mk.injEq] at run'
        have here := exact sig
        rw [run'.2, spec sig, Finset.mem_singleton] at here
        simp only [true_and] at here
        exact ⟨notAlone, (not_iff_not.mp here).symm⟩
      · rw [crash] at run
        cases run
    refine ⟨?_, fun value found => (removed value).2.mpr found, fun sig isSig => (removed sig).2.mp isSig⟩
    rw [← firstValue_ne_none_iff, ← firstValue_ne_none_iff]
    exact (removed []).1
  · intro suffice ring
    have notAlone := suffice.notAlone
    rw [← firstValue_ne_none_iff, ← firstValue_ne_none_iff] at notAlone
    rw [runs]
    rcases unlinkEntry_spec isText whole ring with ⟨-, rc, after, run, spec⟩ | ⟨-, missing, alone⟩
    · refine ⟨rc, after, run, fun sig => ?_⟩
      rw [spec sig]
      exact and_congr_right fun _ => not_congr ⟨suffice.genuine sig, suffice.complete sig⟩
    · exact absurd missing (notAlone alone)

/-- The mount table with one mount of the given options. -/
def oneMount (options : List CStr) : List Mntent :=
  [⟨"/home/user/Private", "ecryptfs", [44].intercalate options⟩]

/-- A mount with a key for the content and one for the names of files. -/
def twoSigOptions : List CStr :=
  ["ecryptfs_fnek_sig=b47", "ecryptfs_sig=a12", "ecryptfs_unlink_sigs"]

/-- An option that does not begin with a name is not that name with a value. -/
theorem append_ne {name sig o : CStr} (other : ¬ name <+: o) : name ++ sig ≠ o := by
  rintro rfl
  exact other (List.prefix_append name sig)

theorem isSignature_twoSigOptions {sig : CStr} :
    IsSignature twoSigOptions sig ↔ sig = lit "a12" ∨ sig = lit "b47" := by
  have fekek : sigName ++ sig = lit "ecryptfs_sig=a12" ↔ sig = lit "a12" := by
    rw [show lit "ecryptfs_sig=a12" = sigName ++ lit "a12" by decide, List.append_right_inj]
  have fnek : fnekSigName ++ sig = lit "ecryptfs_fnek_sig=b47" ↔ sig = lit "b47" := by
    rw [show lit "ecryptfs_fnek_sig=b47" = fnekSigName ++ lit "b47" by decide, List.append_right_inj]
  simp only [IsSignature, twoSigOptions, List.mem_cons, List.not_mem_nil, or_false, fekek, fnek]
  have others : sigName ++ sig ≠ lit "ecryptfs_fnek_sig=b47" ∧
      sigName ++ sig ≠ lit "ecryptfs_unlink_sigs" ∧ fnekSigName ++ sig ≠ lit "ecryptfs_sig=a12" ∧
      fnekSigName ++ sig ≠ lit "ecryptfs_unlink_sigs" :=
    ⟨append_ne (by decide), append_ne (by decide), append_ne (by decide), append_ne (by decide)⟩
  simp only [others, false_or, or_false]

theorem unlinksSignatures_two :
    UnlinksSignatures (oneMount twoSigOptions) "/home/user/Private" twoSigOptions := by
  have fekek : firstValue sigName twoSigOptions = some (lit "a12") := by decide
  have fnek : firstValue fnekSigName twoSigOptions = some (lit "b47") := by decide
  refine (unlinksSignatures_iff (oneMount twoSigOptions) "/home/user/Private" _ twoSigOptions rfl rfl
    (by decide) (by decide)).mpr ⟨by decide, fun value => ?_, fun sig => ?_⟩
  · rw [fekek, fnek, Option.some.injEq, Option.some.injEq, isSignature_twoSigOptions]
    exact Or.imp Eq.symm Eq.symm
  · rw [fekek, fnek, Option.some.injEq, Option.some.injEq, isSignature_twoSigOptions]
    exact Or.imp Eq.symm Eq.symm

/-- A mount with two keys for the content, and one with a key for the names of files only. -/
theorem keys_left_behind :
    (¬ UnlinksSignatures (oneMount ["ecryptfs_unlink_sigs", "ecryptfs_sig=a12", "ecryptfs_sig=c35"])
        "/home/user/Private" ["ecryptfs_unlink_sigs", "ecryptfs_sig=a12", "ecryptfs_sig=c35"]) ∧
      unlinkKeysFromKeyring (some (oneMount ["ecryptfs_unlink_sigs", "ecryptfs_fnek_sig=b47"]))
        "/home/user/Private" {lit "b47"} = none := by
  refine ⟨fun unlinks => ?_, by decide⟩
  obtain ⟨rc, after, run, exact⟩ := unlinks {lit "c35"}
  have stays : unlinkKeysFromKeyring
      (some (oneMount ["ecryptfs_unlink_sigs", "ecryptfs_sig=a12", "ecryptfs_sig=c35"]))
      "/home/user/Private" {lit "c35"} = some (0, {lit "c35"}) := by decide
  rw [stays, Option.some.injEq, Prod.mk.injEq] at run
  have left : lit "c35" ∈ after := by
    rw [← run.2]
    exact Finset.mem_singleton_self _
  exact ((exact (lit "c35")).mp left).2 (.inl (by decide))

end Ecryptfs
