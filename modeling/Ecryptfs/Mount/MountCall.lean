import Ecryptfs.Lib.Covering
import Ecryptfs.Mount.UserOptions

/-!
# The options of the mount call

`ecryptfs_do_mount` puts the parameters from the stack in front of the options of the user, one by one.  A
parameter that `strstr` finds in the string so far is taken for one that is there already.  Nothing is
lost exactly when every parameter that is a part of an earlier one, or of an option of the user, is
itself there.
-/

namespace Ecryptfs

open Separated Covering

/-- How `ecryptfs_do_mount` ends: it faults in `strip_userland_opts`, returns a code without a mount, or
passes the options to `ecryptfs_mount`. -/
inductive MountCall where
  | fault
  | refused (rc : ℤ)
  | passed (opts : CStr)
  deriving DecidableEq

/-- A parameter in front of the options so far; where there are none, `asprintf` writes a NUL in place of
the comma. -/
def addOption (temp : Option CStr) (val : CStr) : CStr :=
  match temp with
  | none => val
  | some temp =>
    if strstr temp val then temp
    else if temp = [] then val
    else val ++ 44 :: temp

section

variable (sigCache : Bool) (processSig : ℕ → CStr → ℤ)

/-- What `process_sig` returns for a parameter, if it is a signature to look up. -/
def sigCode (popped : ℕ) (val : CStr) : ℤ :=
  if sigCache ∧ (lit "ecryptfs_sig=").isPrefixOf val then processSig popped (val.drop 13) else 0

/-- The loop over the stack, down to a null pointer; `popped` parameters have been taken off before. -/
def popParameters (popped : ℕ) (newOpts : Option CStr) : List (Option CStr) → Except ℤ (Option CStr)
  | [] => .ok newOpts
  | none :: _ => .ok newOpts
  | some val :: stack =>
    let rc := sigCode sigCache processSig popped val
    if rc ≠ 0 then .error rc
    else popParameters (popped + 1) (some (addOption newOpts val)) stack

/-- `opts_str_contains_option`: the comparison at the start of each option. -/
def optsStrContainsOption (options : Option CStr) (option : CStr) : Bool :=
  match options with
  | none => false
  | some options => (fields 44 options).any fun opt => option.isPrefixOf opt

/-- `required_mount_opts`. -/
def requiredMountOpts : List CStr := [lit "ecryptfs_key_bytes="]

/-- `ecryptfs_validate_mount_opts`. -/
def validateMountOpts (opts : Option CStr) : ℤ :=
  if requiredMountOpts.all (optsStrContainsOption opts) then 0 else -einval

/-- The options of the user after `strip_userland_opts`; without an option string there is nothing to
strip. -/
def strippedOpts : Option CStr → Option (Option CStr)
  | none => some none
  | some opts => (stripUserlandOpts opts).map fun bytes => some (cString bytes)

/-- `ecryptfs_do_mount`, with the options of the user and the stack of mount parameters; allocations
succeed, and `processSig` is what `process_sig` returns. -/
def doMount (opts : Option CStr) (mntParams : List (Option CStr)) : MountCall :=
  match strippedOpts opts with
  | none => .fault
  | some newOpts =>
    match popParameters sigCache processSig 0 newOpts (some (lit "ecryptfs_unlink_sigs") :: mntParams) with
    | .error rc => .refused rc
    | .ok newOpts =>
      let rc := validateMountOpts newOpts
      if rc ≠ 0 then .refused rc else .passed (newOpts.getD [])

end

/-! ## The options as a set -/

/-- The options of a string. -/
def optionSet (opts : CStr) : Set CStr := {option | option ∈ fields 44 opts ∧ option ≠ []}

/-- The options of the user that are kept. -/
def keptSet (opts : Option CStr) : Set CStr :=
  {option | ∃ kept, strippedOpts opts = some (some kept) ∧ option ∈ optionSet kept}

/-- The parameters that the loop takes off a stack, without the empty ones. -/
def poppedFrom (stack : List (Option CStr)) : List CStr :=
  ((stack.takeWhile Option.isSome).filterMap id).filter (· ≠ [])

/-- The parameters of a mount: those on the stack, down to a null pointer, and the one that is always
given on top of them. -/
def parameters (mntParams : List (Option CStr)) : List CStr :=
  poppedFrom (some (lit "ecryptfs_unlink_sigs") :: mntParams)

/-- The options of a string that need not be there. -/
def optionsOf : Option CStr → Set CStr
  | none => ∅
  | some opts => optionSet opts

/-- `strstr` finds an option in a string exactly when it is a part of one of its options. -/
theorem strstr_iff_covered (temp : CStr) {val : CStr} (whole : 44 ∉ val) (nonempty : val ≠ []) :
    strstr temp val = true ↔ ∃ w ∈ optionSet temp, val <:+: w := by
  rw [strstr_iff, infix_fields whole]
  constructor
  · rintro ⟨w, among, inside⟩
    refine ⟨w, ⟨among, ?_⟩, inside⟩
    rintro rfl
    exact nonempty (List.infix_nil.mp inside)
  · rintro ⟨w, among, inside⟩
    exact ⟨w, among.1, inside⟩

theorem optionSet_nil : optionSet [] = ∅ := by
  have one : fields (44 : UInt8) [] = [[]] := fields_of_notMem List.not_mem_nil
  ext option
  simp [optionSet, one]

theorem optionSet_single {val : CStr} (whole : 44 ∉ val) (nonempty : val ≠ []) :
    optionSet val = {val} := by
  ext option
  simp only [optionSet, fields_of_notMem whole, List.mem_singleton, Set.mem_ofPred_eq,
    Set.mem_singleton_iff]
  exact and_iff_left_of_imp fun same => same ▸ nonempty

theorem optionSet_cons {val : CStr} (whole : 44 ∉ val) (nonempty : val ≠ []) (temp : CStr) :
    optionSet (val ++ 44 :: temp) = insert val (optionSet temp) := by
  ext option
  simp only [optionSet, fields_append, fields_of_notMem whole, List.mem_append, List.mem_singleton,
    Set.mem_ofPred_eq, Set.mem_insert_iff]
  constructor
  · rintro ⟨rfl | among, nonempty'⟩
    · exact .inl rfl
    · exact .inr ⟨among, nonempty'⟩
  · rintro (rfl | ⟨among, nonempty'⟩)
    · exact ⟨.inl rfl, nonempty⟩
    · exact ⟨.inr among, nonempty'⟩

/-- What a parameter adds to the options: itself, unless it is a part of one of them. -/
theorem optionSet_addOption (temp : Option CStr) {val : CStr} (whole : 44 ∉ val) (nonempty : val ≠ []) :
    optionSet (addOption temp val) = add (· <:+: ·) (optionsOf temp) val := by
  cases temp with
  | none =>
    rw [addOption, optionSet_single whole nonempty, add_of_not (by simp [optionsOf])]
    simp [optionsOf]
  | some temp =>
    have found := strstr_iff_covered temp whole nonempty
    rw [addOption]
    by_cases covered : strstr temp val = true
    · rw [if_pos covered, optionsOf, add_of_covered (found.mp covered)]
    · rw [if_neg covered, optionsOf, add_of_not fun covered' => covered (found.mpr covered')]
      rcases eq_or_ne temp [] with rfl | some_
      · rw [if_pos rfl, optionSet_single whole nonempty, optionSet_nil, insert_empty_eq]
      · rw [if_neg some_, optionSet_cons whole nonempty]

/-- An empty parameter adds nothing. -/
theorem optionSet_addOption_nil (temp : Option CStr) :
    optionSet (addOption temp []) = optionsOf temp := by
  cases temp with
  | none => exact optionSet_nil
  | some temp =>
    rw [addOption, if_pos (strstr_iff.mpr List.nil_infix)]
    rfl

/-- The options after the loop. -/
theorem optionsOf_popParameters {sigCache : Bool} {processSig : ℕ → CStr → ℤ} {popped : ℕ}
    {newOpts opts : Option CStr} {stack : List (Option CStr)}
    (ok : popParameters sigCache processSig popped newOpts stack = .ok opts)
    (whole : ∀ val ∈ poppedFrom stack, 44 ∉ val) :
    optionsOf opts = (poppedFrom stack).foldl (add (· <:+: ·)) (optionsOf newOpts) := by
  induction stack generalizing popped newOpts with
  | nil =>
    obtain rfl := Except.ok.inj ok
    rfl
  | cons entry stack ih =>
    cases entry with
    | none =>
      obtain rfl := Except.ok.inj ok
      rfl
    | some val =>
      rw [popParameters] at ok
      split_ifs at ok with failed
      rcases eq_or_ne val [] with rfl | nonempty
      · have same : poppedFrom (some [] :: stack) = poppedFrom stack := by
          simp [poppedFrom]
        rw [same] at whole ⊢
        rw [ih ok whole, optionsOf, optionSet_addOption_nil]
      · have first : poppedFrom (some val :: stack) = val :: poppedFrom stack := by
          simp [poppedFrom, nonempty]
        rw [first] at whole ⊢
        rw [ih ok fun u among => whole u (List.mem_cons_of_mem val among), optionsOf,
          optionSet_addOption newOpts (whole val List.mem_cons_self) nonempty, List.foldl_cons]

theorem optionsOf_strippedOpts {opts newOpts : Option CStr} (stripped : strippedOpts opts = some newOpts) :
    optionsOf newOpts = keptSet opts := by
  cases newOpts with
  | none =>
    ext option
    simp [optionsOf, keptSet, stripped]
  | some kept =>
    ext option
    simp [optionsOf, keptSet, stripped]

/-- A run that passes options on. -/
theorem doMount_passed {sigCache : Bool} {processSig : ℕ → CStr → ℤ} {user : Option CStr}
    {mntParams : List (Option CStr)} {opts : CStr}
    (passed : doMount sigCache processSig user mntParams = .passed opts) :
    ∃ newOpts, strippedOpts user = some newOpts ∧
      popParameters sigCache processSig 0 newOpts
        (some (lit "ecryptfs_unlink_sigs") :: mntParams) = .ok (some opts) := by
  unfold doMount at passed
  rcases stripped : strippedOpts user with _ | newOpts
  · rw [stripped] at passed
    cases passed
  · rw [stripped] at passed
    refine ⟨newOpts, rfl, ?_⟩
    simp only at passed
    rcases popped : popParameters sigCache processSig 0 newOpts
        (some (lit "ecryptfs_unlink_sigs") :: mntParams) with rc | _ | opts'
    · rw [popped] at passed
      cases passed
    · rw [popped] at passed
      simp only at passed
      have refused : validateMountOpts none ≠ 0 := by decide
      rw [if_pos refused] at passed
      cases passed
    · rw [popped] at passed
      simp only at passed
      split_ifs at passed
      rw [← MountCall.passed.inj passed]
      rfl

/-- **Which parameters reach the mount call.**  The options that are passed on are the parameters and the
options of the user exactly when no parameter contains a comma and every parameter that is a part of an
earlier one, or of an option of the user, is itself one of these. -/
theorem doMount_options_iff {sigCache : Bool} {processSig : ℕ → CStr → ℤ} {user : Option CStr}
    {mntParams : List (Option CStr)} {opts : CStr}
    (passed : doMount sigCache processSig user mntParams = .passed opts) :
    optionSet opts = keptSet user ∪ {val | val ∈ parameters mntParams} ↔
      (∀ val ∈ parameters mntParams, 44 ∉ val) ∧
        ∀ earlier val later, parameters mntParams = earlier ++ val :: later →
          (∃ w, (w ∈ earlier ∨ w ∈ keptSet user) ∧ val <:+: w) →
            val ∈ earlier ∨ val ∈ keptSet user := by
  obtain ⟨newOpts, stripped, popped⟩ := doMount_passed passed
  have run : (∀ val ∈ parameters mntParams, 44 ∉ val) →
      (optionSet opts = keptSet user ∪ {val | val ∈ parameters mntParams} ↔
        Harmless (· <:+: ·) (keptSet user) (parameters mntParams)) := by
    intro whole
    have result : optionSet opts = (parameters mntParams).foldl (add (· <:+: ·)) (keptSet user) := by
      rw [← optionsOf_strippedOpts stripped]
      exact optionsOf_popParameters popped whole
    rw [result]
    exact foldl_eq_iff List.infix_refl List.IsInfix.trans _ _
  constructor
  · intro union
    have whole : ∀ val ∈ parameters mntParams, 44 ∉ val := by
      intro val among
      have inside : val ∈ optionSet opts := union ▸ .inr among
      exact sep_notMem_of_mem_fields inside.1
    exact ⟨whole, (run whole).mp union⟩
  · rintro ⟨whole, harmless⟩
    exact (run whole).mpr harmless

theorem doMount_options_sample :
    optionSet (lit "ecryptfs_sig=01,ecryptfs_key_bytes=16,ecryptfs_unlink_sigs") = keptSet none ∪
      {val | val ∈ parameters
        [some (lit "ecryptfs_key_bytes=16"), some (lit "ecryptfs_sig=01"), none]} := by
  have passed : doMount false (fun _ _ => 0) none
      [some (lit "ecryptfs_key_bytes=16"), some (lit "ecryptfs_sig=01"), none] =
      .passed (lit "ecryptfs_sig=01,ecryptfs_key_bytes=16,ecryptfs_unlink_sigs") := by decide
  have apart : (parameters [some (lit "ecryptfs_key_bytes=16"), some (lit "ecryptfs_sig=01"),
      none]).Pairwise fun w val => ¬val <:+: w := by decide
  refine (doMount_options_iff passed).mpr ⟨by decide, ?_⟩
  rintro earlier val later split ⟨w, among | kept, inside⟩
  · rw [split, List.pairwise_append] at apart
    exact absurd inside (apart.2.2 w among val List.mem_cons_self)
  · obtain ⟨kept, stripped, -⟩ := kept
    cases stripped

/-- A comment of the user that contains the text of the parameter. -/
theorem doMount_loses_unlink_sigs : ∃ opts,
    doMount false (fun _ _ => 0) (some (lit "comment=ecryptfs_unlink_sigs"))
      [some (lit "ecryptfs_key_bytes=16"), none] = .passed opts ∧
    optionSet opts ≠ keptSet (some (lit "comment=ecryptfs_unlink_sigs")) ∪
      {val | val ∈ parameters [some (lit "ecryptfs_key_bytes=16"), none]} := by
  have stripped : strippedOpts (some (lit "comment=ecryptfs_unlink_sigs")) =
      some (some (lit "comment=ecryptfs_unlink_sigs")) := by
    rw [strippedOpts, stripUserlandOpts_of_lt (by decide)]
    decide
  refine ⟨lit "ecryptfs_key_bytes=16,comment=ecryptfs_unlink_sigs", ?_, ?_⟩
  · rw [doMount, stripped]
    decide
  · intro union
    have given : lit "ecryptfs_unlink_sigs" ∈
        optionSet (lit "ecryptfs_key_bytes=16,comment=ecryptfs_unlink_sigs") :=
      union ▸ .inr (by decide)
    exact absurd given.1 (by decide)

end Ecryptfs
