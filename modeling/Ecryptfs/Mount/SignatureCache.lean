import Mathlib.Logic.Relation
import Ecryptfs.Lib.Records
import Ecryptfs.Passphrase.Signature

/-!
# The cache of signatures

A mount looks its key up in a file of signatures, one line of seventeen bytes each, and appends the
signature when the user says so.  `ecryptfs_append_sig` opens the file, goes to its end and writes, in
three system calls and without a lock, so that of two calls that have gone to the same end the later
one writes over the signature of the earlier one.

The records stay aligned in every interleaving.  As long as a write goes to the end of the file, or
replaces a signature that is stored elsewhere as well, the cache has exactly the signatures that it
should have (`cacheRight_of_harmless`).
-/

namespace Ecryptfs

open Records

/-- A signature as the cache takes it: the first sixteen bytes of a text. -/
abbrev SigText := { t : List UInt8 // t.length = sigSizeHex }

/-- The size of a line, which ends with a newline. -/
def sigLine : ℕ := sigSizeHex + 1

/-- `ECRYPTFS_SIG_FLAG_NOENT`. -/
def sigFlagNoent : UInt32 := 1

/-! ## Looking up -/

/-- The loop of `ecryptfs_check_sig` over the rest of the file: whether it ends at a line that begins
with the signature. -/
def checkSigLoop (sig : SigText) (rest : List UInt8) : Bool :=
  if _short : rest.length < sigLine then false
  else if (rest.take sigLine).take sigSizeHex = sig.1 then true
  else checkSigLoop sig (rest.drop sigLine)
termination_by rest.length
decreasing_by
  rw [List.length_drop]
  unfold sigLine at *
  omega

/-- `ecryptfs_check_sig`: its return value, and the flags it leaves.  A file that cannot be opened is
`none`. -/
def checkSig (sig : SigText) (file : Option (List UInt8)) (flags : UInt32) : ℤ × UInt32 :=
  let flags := flags &&& ~~~sigFlagNoent
  match file with
  | none => (0, flags ||| sigFlagNoent)
  | some content => if checkSigLoop sig content then (0, flags) else (0, flags ||| sigFlagNoent)

/-- A call of `ecryptfs_check_sig` reports a signature as present, whatever the flags are before. -/
def ReportsPresent (sig : SigText) (file : Option (List UInt8)) : Prop :=
  ∀ flags, (checkSig sig file flags).2 &&& sigFlagNoent = 0

/-- A call of `ecryptfs_check_sig` reports a signature as absent. -/
def ReportsAbsent (sig : SigText) (file : Option (List UInt8)) : Prop :=
  ∀ flags, (checkSig sig file flags).2 &&& sigFlagNoent ≠ 0

/-- The signature in a line. -/
def sigAt (k : ℕ) (content : List UInt8) : List UInt8 := (record sigLine k content).take sigSizeHex

/-- A signature is stored in some line. -/
def Stored (sig : SigText) (content : List UInt8) : Prop :=
  ∃ k, Full sigLine k content ∧ sigAt k content = sig.1

theorem checkSigLoop_iff (sig : SigText) (rest : List UInt8) :
    checkSigLoop sig rest = true ↔ Stored sig rest := by
  fun_induction checkSigLoop sig rest with
  | case1 rest short =>
    refine iff_of_false Bool.false_ne_true ?_
    rintro ⟨k, full, -⟩
    unfold Full at full
    exact absurd (le_trans (Nat.le_mul_of_pos_right _ k.succ_pos) full) (not_le.mpr short)
  | case2 rest enough found =>
    refine iff_of_true rfl ⟨0, ?_, by simpa [sigAt, record] using found⟩
    simpa [Full] using enough
  | case3 rest enough other ih =>
    have lines := @exists_full_iff _ sigLine rest (fun line => line.take sigSizeHex = sig.1)
      (not_lt.mp enough)
    simp only [other, false_or] at lines
    exact ih.trans lines.symm

theorem noent_cleared (flags : UInt32) : flags &&& ~~~sigFlagNoent &&& sigFlagNoent = 0 := by
  have none_ : ~~~sigFlagNoent &&& sigFlagNoent = 0 := by decide
  rw [UInt32.and_assoc, none_, UInt32.and_zero]

theorem noent_set (flags : UInt32) : (flags ||| sigFlagNoent) &&& sigFlagNoent = sigFlagNoent := by
  apply UInt32.eq_of_toBitVec_eq
  ext i
  simp only [UInt32.toBitVec_and, UInt32.toBitVec_or, BitVec.getElem_and, BitVec.getElem_or]
  cases flags.toBitVec[i] <;> cases sigFlagNoent.toBitVec[i] <;> rfl

/-- A lookup clears the flag for the signatures that are stored, and sets it for the others. -/
theorem checkSig_flag (sig : SigText) (file : Option (List UInt8)) (flags : UInt32) :
    (checkSig sig file flags).2 &&& sigFlagNoent = 0 ↔ Stored sig (file.getD []) := by
  have flag : sigFlagNoent ≠ 0 := by decide
  rcases file with _ | content
  · have nothing : ¬ Stored sig [] := by
      rintro ⟨k, full, -⟩
      exact absurd full (by simp [Full, sigLine])
    rw [checkSig, noent_set]
    exact iff_of_false flag nothing
  · rw [Option.getD_some, ← checkSigLoop_iff, checkSig]
    split_ifs with found
    · exact iff_of_true (noent_cleared flags) found
    · rw [noent_set]
      exact iff_of_false flag found

theorem reportsPresent_iff (sig : SigText) (file : Option (List UInt8)) :
    ReportsPresent sig file ↔ Stored sig (file.getD []) :=
  (forall_congr' (checkSig_flag sig file)).trans (forall_const _)

theorem reportsAbsent_iff (sig : SigText) (file : Option (List UInt8)) :
    ReportsAbsent sig file ↔ ¬ Stored sig (file.getD []) :=
  (forall_congr' fun flags => not_congr (checkSig_flag sig file flags)).trans (forall_const _)

/-! ## Appending -/

/-- Where a call of `ecryptfs_append_sig` stands: in front of its `open`, its `lseek` or its `write` at
an offset, or behind its return. -/
inductive AppendPc where
  | open_
  | seek
  | write (offset : ℕ)
  | returned (rc : ℤ)
  deriving DecidableEq

/-- The calls, and the file, which is `none` as long as it does not exist. -/
structure CacheState (ι : Type) where
  pc : ι → AppendPc
  file : Option (List UInt8)

variable {ι : Type} [DecidableEq ι] (sig : ι → SigText)

namespace CacheState

/-- Call `p` goes on. -/
def goto (s : CacheState ι) (p : ι) (pc : AppendPc) : CacheState ι :=
  { s with pc := Function.update s.pc p pc }

/-- The bytes of the file. -/
def content (s : CacheState ι) : List UInt8 := s.file.getD []

end CacheState

/-- One system call of the call `p`, which appends `sig p`.  The `fchown` in between has no effect on
the file, and a failure of it is only logged. -/
inductive AppendStep (s : CacheState ι) (p : ι) : CacheState ι → Prop
  | opened (here : s.pc p = .open_) :
      AppendStep s p { s.goto p .seek with file := some s.content }
  | openFailed (here : s.pc p = .open_) : AppendStep s p (s.goto p (.returned (-eio)))
  | sought (here : s.pc p = .seek) : AppendStep s p (s.goto p (.write s.content.length))
  | written {i} (here : s.pc p = .write i) :
      AppendStep s p { s.goto p (.returned 0) with
        file := some (overwrite 0 s.content i ((sig p).1 ++ lit "\n")) }

/-- No call has begun, and the file consists of whole lines. -/
structure CacheState.Initial (s : CacheState ι) : Prop where
  begin_ : ∀ p, s.pc p = .open_
  whole : sigLine ∣ s.content.length

/-- The lookups report the signatures stored at the start and those that have been appended, and no
others. -/
def CacheRight (start s : CacheState ι) : Prop :=
  ∀ t : SigText,
    (Stored t start.content ∨ (∃ p, s.pc p = .returned 0 ∧ sig p = t) → ReportsPresent t s.file) ∧
      (¬ (Stored t start.content ∨ ∃ p, s.pc p = .returned 0 ∧ sig p = t) → ReportsAbsent t s.file)

/-- A write of call `p` does no harm: it goes to the end of the file, or it replaces a signature that is
its own or is in another line as well. -/
def Harmless (s : CacheState ι) (p : ι) : Prop :=
  ∀ i, s.pc p = .write i → i = s.content.length ∨ sigAt (i / sigLine) s.content = (sig p).1 ∨
    ∃ j, j ≠ i / sigLine ∧ Full sigLine j s.content ∧
      sigAt j s.content = sigAt (i / sigLine) s.content

/-- A step of a call that does no harm. -/
def HarmlessStep (s s' : CacheState ι) : Prop := ∃ p, AppendStep sig s p s' ∧ Harmless sig s p

/-! ## The lines stay aligned -/

variable {sig} {s s' start : CacheState ι} {p : ι}

/-- The file consists of whole lines, and the writes to come begin at a line or at the end. -/
structure Aligned (s : CacheState ι) : Prop where
  whole : sigLine ∣ s.content.length
  places : ∀ p i, s.pc p = .write i → ∃ k, i = sigLine * k ∧ i ≤ s.content.length

theorem goto_pc_eq {pc pc' : AppendPc} {q : ι} (place : (s.goto p pc).pc q = pc') :
    q = p ∧ pc = pc' ∨ q ≠ p ∧ s.pc q = pc' := by
  change Function.update s.pc p pc q = pc' at place
  rwa [Function.update_apply, ite_eq_iff] at place

/-- What a call writes is a line. -/
theorem length_line (t : SigText) : (t.1 ++ lit "\n").length = sigLine := by
  rw [List.length_append, t.2]
  rfl

/-- The signature of a written line. -/
theorem take_line (t : SigText) : (t.1 ++ lit "\n").take sigSizeHex = t.1 := List.take_left' t.2

theorem Aligned.step (inv : Aligned s) (step : AppendStep sig s p s') : Aligned s' := by
  cases step with
  | opened here =>
    refine ⟨inv.whole, fun q i place => ?_⟩
    rcases goto_pc_eq place with ⟨-, new⟩ | ⟨-, old⟩
    · cases new
    · exact inv.places q i old
  | openFailed here =>
    refine ⟨inv.whole, fun q i place => ?_⟩
    rcases goto_pc_eq place with ⟨-, new⟩ | ⟨-, old⟩
    · cases new
    · exact inv.places q i old
  | sought here =>
    refine ⟨inv.whole, fun q i place => ?_⟩
    rcases goto_pc_eq place with ⟨-, new⟩ | ⟨-, old⟩
    · obtain rfl := AppendPc.write.inj new
      obtain ⟨k, length⟩ := inv.whole
      exact ⟨k, length, le_rfl⟩
    · exact inv.places q i old
  | @written i here =>
    obtain ⟨k, rfl, inside⟩ := inv.places p i here
    refine ⟨dvd_length_overwrite (length_line _) inside inv.whole, fun q j place => ?_⟩
    rcases goto_pc_eq place with ⟨-, new⟩ | ⟨-, old⟩
    · cases new
    · obtain ⟨l, isPlace, small⟩ := inv.places q j old
      refine ⟨l, isPlace, small.trans ?_⟩
      show s.content.length ≤ (overwrite 0 s.content (sigLine * k) _).length
      rw [length_overwrite inside]
      exact le_max_left _ _

omit [DecidableEq ι] in
theorem CacheState.Initial.aligned (initial : s.Initial) : Aligned s :=
  ⟨initial.whole, fun p i place => absurd ((initial.begin_ p).symm.trans place) (by simp)⟩

/-! ## What is stored -/

/-- What should be stored: what was at the start, and what has been appended. -/
def Expected (sig : ι → SigText) (start s : CacheState ι) (t : SigText) : Prop :=
  Stored t start.content ∨ ∃ p, s.pc p = .returned 0 ∧ sig p = t

omit [DecidableEq ι] in
theorem cacheRight_iff : CacheRight sig start s ↔ ∀ t, Stored t s.content ↔ Expected sig start s t := by
  refine forall_congr' fun t => ?_
  rw [reportsPresent_iff, reportsAbsent_iff]
  exact ⟨fun both => ⟨fun stored => not_not.mp fun other => both.2 other stored, both.1⟩,
    fun same => ⟨same.mpr, mt same.mp⟩⟩

/-- After a write the signature is stored, and every other one that is in another line. -/
theorem stored_written {content : List UInt8} {k : ℕ} (whole : sigLine ∣ content.length)
    (inside : sigLine * k ≤ content.length) (t u : SigText) :
    Stored u (overwrite 0 content (sigLine * k) (t.1 ++ lit "\n")) ↔
      u = t ∨ ∃ j, j ≠ k ∧ Full sigLine j content ∧ sigAt j content = u.1 := by
  have size := length_line t
  have own : sigAt k (overwrite 0 content (sigLine * k) (t.1 ++ lit "\n")) = t.1 := by
    rw [sigAt, record_overwrite_self size inside, take_line]
  have others : ∀ j, j ≠ k →
      sigAt j (overwrite 0 content (sigLine * k) (t.1 ++ lit "\n")) = sigAt j content := by
    intro j other
    rw [sigAt, record_overwrite_of_ne size inside other, sigAt]
  have full : ∀ j, Full sigLine j (overwrite 0 content (sigLine * k) (t.1 ++ lit "\n")) ↔
      Full sigLine j content ∨ j = k :=
    fun j => full_overwrite size inside (by decide) whole
  constructor
  · rintro ⟨j, isFull, same⟩
    by_cases isOwn : j = k
    · subst isOwn
      exact .inl (Subtype.ext (same.symm.trans own))
    · rw [others j isOwn] at same
      exact .inr ⟨j, isOwn, ((full j).mp isFull).resolve_right isOwn, same⟩
  · rintro (rfl | ⟨j, other, isFull, same⟩)
    · exact ⟨k, (full k).mpr (.inr rfl), own⟩
    · exact ⟨j, (full j).mpr (.inl isFull), (others j other).trans same⟩

/-- The expectations change with the return of a call that has written. -/
theorem expected_goto {pc pc' : AppendPc} (here : s.pc p = pc) (running : pc ≠ .returned 0) (t : SigText) :
    (∃ q, (s.goto p pc').pc q = .returned 0 ∧ sig q = t) ↔
      (pc' = .returned 0 ∧ sig p = t) ∨ ∃ q, s.pc q = .returned 0 ∧ sig q = t := by
  constructor
  · rintro ⟨q, isReturned, same⟩
    rcases goto_pc_eq isReturned with ⟨rfl, new⟩ | ⟨-, old⟩
    · exact .inl ⟨new, same⟩
    · exact .inr ⟨q, old, same⟩
  · rintro (⟨rfl, same⟩ | ⟨q, isReturned, same⟩)
    · exact ⟨p, Function.update_self _ _ _, same⟩
    · have other : q ≠ p := by
        rintro rfl
        exact running (here.symm.trans isReturned)
      exact ⟨q, (Function.update_of_ne other _ _).trans isReturned, same⟩

omit [DecidableEq ι] in
theorem harmless_of_running {pc : AppendPc} (here : s.pc p = pc) (other : ∀ i, pc ≠ .write i) :
    Harmless sig s p := fun i place => absurd (here.symm.trans place) (other i)

/-- A step that is no write changes neither the lines nor the expectations. -/
theorem cacheRight_unchanged (right : CacheRight sig start s) {pc pc' : AppendPc} (here : s.pc p = pc)
    (running : pc ≠ .returned 0) (next : pc' ≠ .returned 0) (pcs : s'.pc = (s.goto p pc').pc)
    (content : s'.content = s.content) : CacheRight sig start s' := by
  rw [cacheRight_iff] at right ⊢
  intro t
  rw [content, right t, Expected, Expected, pcs, expected_goto here running]
  simp only [next, false_and, false_or]

/-- A write leaves a cache that is right exactly when it does no harm. -/
theorem cacheRight_written_iff (inv : Aligned s) (right : CacheRight sig start s) {i : ℕ}
    (here : s.pc p = .write i) :
    CacheRight sig start { s.goto p (.returned 0) with
      file := some (overwrite 0 s.content i ((sig p).1 ++ lit "\n")) } ↔ Harmless sig s p := by
  obtain ⟨k, rfl, inside⟩ := inv.places p i here
  have line : sigLine * k / sigLine = k := Nat.mul_div_cancel_left k (by decide)
  have full : Full sigLine k s.content ↔ sigLine * k ≠ s.content.length := by
    rw [full_iff (by decide) inv.whole]
    omega
  have expected : ∀ t, Expected sig start { s.goto p (.returned 0) with
      file := some (overwrite 0 s.content (sigLine * k) ((sig p).1 ++ lit "\n")) } t ↔
        t = sig p ∨ Stored t s.content := by
    intro t
    have returned := @expected_goto _ _ sig s p _ (.returned 0) here (by simp) t
    rw [cacheRight_iff.mp right t, Expected, Expected, eq_comm]
    show (_ ∨ ∃ q, (s.goto p (.returned 0)).pc q = .returned 0 ∧ sig q = t) ↔ _
    rw [returned, eq_self, true_and]
    exact or_left_comm
  rw [cacheRight_iff]
  constructor
  · intro same j place
    obtain rfl := AppendPc.write.inj (here.symm.trans place)
    rw [line]
    by_cases isEnd : sigLine * k = s.content.length
    · exact .inl isEnd
    · -- the signature that is replaced
      have size : (sigAt k s.content).length = sigSizeHex := by
        rw [sigAt, List.length_take, length_record (full.mpr isEnd)]
        rfl
      have replaced : Stored ⟨sigAt k s.content, size⟩ s.content := ⟨k, full.mpr isEnd, rfl⟩
      rcases (stored_written inv.whole inside _ _).mp ((same _).mpr ((expected _).mpr (.inr replaced)))
        with isOwn | elsewhere
      · exact .inr (.inl (congrArg Subtype.val isOwn))
      · exact .inr (.inr elsewhere)
  · intro harmless t
    rw [expected]
    refine (stored_written inv.whole inside (sig p) t).trans (or_congr_right' fun notOwn => ?_)
    constructor
    · rintro ⟨j, -, isFull, isText⟩
      exact ⟨j, isFull, isText⟩
    · rintro ⟨j, isFull, isText⟩
      by_cases isReplaced : j = k
      · -- the text is in the line that is replaced, and so in another one
        subst isReplaced
        have harmless := harmless _ here
        rw [line] at harmless
        rcases harmless with isEnd | isOwn | ⟨l, other, isFull', same⟩
        · exact absurd isEnd (full.mp isFull)
        · exact absurd (Subtype.ext (isText.symm.trans isOwn)) notOwn
        · exact ⟨l, other, isFull', same.trans isText⟩
      · exact ⟨j, isReplaced, isFull, isText⟩

/-- A step leaves a cache that is right exactly when it does no harm. -/
theorem cacheRight_step_iff (inv : Aligned s) (right : CacheRight sig start s)
    (step : AppendStep sig s p s') : CacheRight sig start s' ↔ Harmless sig s p := by
  cases step with
  | opened here =>
    exact iff_of_true (cacheRight_unchanged right here (by simp) (by simp) rfl rfl)
      (harmless_of_running here (by simp))
  | openFailed here =>
    exact iff_of_true (cacheRight_unchanged right here (by simp) (by simp [eio]) rfl rfl)
      (harmless_of_running here (by simp))
  | sought here =>
    exact iff_of_true (cacheRight_unchanged right here (by simp) (by simp) rfl rfl)
      (harmless_of_running here (by simp))
  | written here => exact cacheRight_written_iff inv right here

omit [DecidableEq ι] in
theorem CacheState.Initial.right (initial : s.Initial) : CacheRight sig s s := by
  refine cacheRight_iff.mpr fun t => ⟨.inl, fun expected => expected.resolve_right ?_⟩
  rintro ⟨p, isReturned, -⟩
  exact absurd ((initial.begin_ p).symm.trans isReturned) (by simp)

/-- A run whose writes do no harm keeps the lines aligned and the cache right. -/
theorem harmless_run (initial : start.Initial) (run : Relation.ReflTransGen (HarmlessStep sig) start s) :
    Aligned s ∧ CacheRight sig start s := by
  induction run with
  | refl => exact ⟨initial.aligned, initial.right⟩
  | tail _ last ih =>
    obtain ⟨p, step, harmless⟩ := last
    exact ⟨ih.1.step step, (cacheRight_step_iff ih.1 ih.2 step).mpr harmless⟩

/-- **The cache of signatures.**  In every run whose writes do no harm, the lookups report exactly the
signatures that were stored at the start or have been appended; and the first write that does harm
makes a signature disappear. -/
theorem cacheRight_of_harmless (initial : start.Initial)
    (run : Relation.ReflTransGen (HarmlessStep sig) start s) :
    CacheRight sig start s ∧
      ∀ p s', AppendStep sig s p s' → (CacheRight sig start s' ↔ Harmless sig s p) := by
  have kept := harmless_run initial run
  exact ⟨kept.2, fun p s' step => cacheRight_step_iff kept.1 kept.2 step⟩

/-- Two signatures that are appended to an empty file. -/
def twoSigs : Bool → SigText
  | false => ⟨List.replicate 16 97, rfl⟩
  | true => ⟨List.replicate 16 98, rfl⟩

def emptyCache : CacheState Bool := ⟨fun _ => .open_, some []⟩

theorem emptyCache_initial : emptyCache.Initial := ⟨fun _ => rfl, dvd_zero _⟩

/-- One call after the other. -/
theorem cacheRight_of_harmless_twoSigs :
    ∃ s, (∀ p, s.pc p = .returned 0) ∧ s.content.length = 34 ∧ CacheRight twoSigs emptyCache s := by
  have atOpen : ∀ {s : CacheState Bool} {p}, s.pc p = .open_ → Harmless twoSigs s p :=
    fun here => harmless_of_running here (by simp)
  have atSeek : ∀ {s : CacheState Bool} {p}, s.pc p = .seek → Harmless twoSigs s p :=
    fun here => harmless_of_running here (by simp)
  have run : Relation.ReflTransGen (HarmlessStep twoSigs) emptyCache _ :=
    (((((Relation.ReflTransGen.refl.tail ⟨false, .opened rfl, atOpen rfl⟩).tail
      ⟨false, .sought rfl, atSeek rfl⟩).tail
      ⟨false, .written rfl, fun i place => .inl (AppendPc.write.inj place).symm⟩).tail
      ⟨true, .opened rfl, atOpen rfl⟩).tail
      ⟨true, .sought rfl, atSeek rfl⟩).tail
      ⟨true, .written rfl, fun i place => .inl (AppendPc.write.inj place).symm⟩
  refine ⟨_, fun p => ?_, rfl, (cacheRight_of_harmless emptyCache_initial run).1⟩
  cases p <;> rfl

/-- A file of one line stores only its signature. -/
theorem not_stored_line : ¬ Stored (twoSigs false) ((twoSigs true).1 ++ lit "\n") := by
  rintro ⟨k, full, same⟩
  rw [Full, length_line, sigLine] at full
  have first : k = 0 := by
    unfold sigSizeHex at full
    omega
  subst first
  exact absurd same (by decide)

/-- Two calls that go to the same end: the signature that is written first is lost. -/
theorem cacheRight_fails :
    emptyCache.Initial ∧ ∃ s, Relation.ReflTransGen (fun a b => ∃ p, AppendStep twoSigs a p b) emptyCache s ∧
      (∀ p, s.pc p = .returned 0) ∧ ReportsAbsent (twoSigs false) s.file ∧
        ¬ CacheRight twoSigs emptyCache s := by
  have run : Relation.ReflTransGen (fun a b => ∃ p, AppendStep twoSigs a p b) emptyCache _ :=
    (((((Relation.ReflTransGen.refl.tail ⟨false, .opened rfl⟩).tail ⟨true, .opened rfl⟩).tail
      ⟨false, .sought rfl⟩).tail ⟨true, .sought rfl⟩).tail ⟨false, .written rfl⟩).tail
      ⟨true, .written rfl⟩
  refine ⟨emptyCache_initial, _, run, fun p => ?_, ?_⟩
  · cases p <;> rfl
  · have absent := (reportsAbsent_iff _ (some _)).mpr not_stored_line
    refine ⟨absent, fun right => ?_⟩
    have present := (right (twoSigs false)).1 (.inr ⟨false, rfl, rfl⟩)
    exact absent 0 (present 0)

end Ecryptfs
