import Ecryptfs.Mount.Command
import Ecryptfs.Mount.SignatureCache
import Ecryptfs.Passphrase.StdinString

/-!
# Signatures that were never seen

Before a mount, `process_sig` looks each signature up in the cache.  For one that is not there the user is asked
whether to proceed, and then whether to remember it.  Over any run of mounts, the user is asked about exactly
those signatures that were neither in the cache at the start nor remembered since, and nothing is mounted with
them unless the answer is `yes` (`asksOnce_of_run`).
-/

namespace Ecryptfs

open Records

/-! ## The questions -/

/-- One answer to a question: the code of `get_string_stdin`, or the text; and what is left of the input. -/
def readAnswer (heap : Heap) (stdin : List UInt8) : Except Fault (Except ℤ CStr × List UInt8) := do
  let r ← getStringStdin heap (fun _ => true) ⟨0, 0⟩ true none stdin
  .ok (if r.rc ≠ 0 then .error r.rc else .ok (cString (r.val.getD [])), r.rest)

/-- The loops of `process_sig` that ask for yes or no, with the number of tries that are left after this one. -/
def askYesno (heap : Heap) : ℕ → List UInt8 → Except Fault (Except ℤ CStr × List UInt8)
  | 0, stdin => readAnswer heap stdin
  | tries + 1, stdin => do
    match ← readAnswer heap stdin with
    | (.ok yesno, rest) =>
      if yesno ≠ lit "yes" ∧ yesno ≠ lit "no" then askYesno heap tries rest else .ok (.ok yesno, rest)
    | failed => .ok failed

/-- `ecryptfs_append_sig`, when nothing else works on the file: it cannot be opened, or up to the given number of
bytes are written. -/
def appendSig (sig : SigText) (written : Option ℕ) (cache : Option (List UInt8)) : ℤ × Option (List UInt8) :=
  match written with
  | none => (-eio, cache)
  | some n =>
    let content := cache.getD []
    (if n < sigLine then -eio else 0, some (overwrite 0 content content.length ((sig.1 ++ lit "\n").take n)))

/-- What a call of `process_sig` comes to: its code, the cache and what is left of the input, with the last
answers to its two questions, if they were asked. -/
structure Lookup where
  sig : SigText
  rc : ℤ
  cache : Option (List UInt8)
  rest : List UInt8
  proceed : Option (Except ℤ CStr)
  append : Option (Except ℤ CStr)

/-- `process_sig` for a signature; allocations succeed. -/
def processSig (heap : Heap) (sig : SigText) (written : Option ℕ) (cache : Option (List UInt8))
    (stdin : List UInt8) : Except Fault Lookup :=
  let (rc, flags) := checkSig sig cache 0
  if rc ≠ 0 ∨ flags &&& sigFlagNoent = 0 then
    .ok { sig, rc, cache, rest := stdin, proceed := none, append := none }
  else do
    match ← askYesno heap 4 stdin with
    | (.error rc, rest) => .ok { sig, rc, cache, rest, proceed := some (.error rc), append := none }
    | (.ok yesno, rest) =>
      -- the code of an answer that is neither yes nor no is overwritten
      if yesno ≠ lit "yes" then
        .ok { sig, rc := ecanceled, cache, rest, proceed := some (.ok yesno), append := none }
      else
        match ← askYesno heap 4 rest with
        | (.error rc, rest) =>
          .ok { sig, rc, cache, rest, proceed := some (.ok yesno), append := some (.error rc) }
        | (.ok again, rest) =>
          let (rc, cache) := if again = lit "yes" then appendSig sig written cache
            else (if again = lit "no" then 0 else -einval, cache)
          .ok { sig, rc, cache, rest, proceed := some (.ok yesno), append := some (.ok again) }

/-- The loop of `ecryptfs_do_mount` over the stack, as far as it looks up signatures: what `process_sig` comes
to for each parameter that is one.  The outcomes of the appends are numbered by the parameters taken off
before. -/
def lookUps (heap : Heap) (appends : ℕ → Option ℕ) (popped : ℕ) : List (Option CStr) → Option (List UInt8) →
    List UInt8 → Except Fault (List (Option Lookup))
  | [], _, _ => .ok []
  | none :: _, _, _ => .ok []
  | some val :: stack, cache, stdin =>
    if (lit "ecryptfs_sig=").isPrefixOf val then
      if fits : sigSizeHex ≤ (val.drop 13).length then do
        let sig : SigText := ⟨(val.drop 13).take sigSizeHex, List.length_take_of_le fits⟩
        let r ← processSig heap sig (appends popped) cache stdin
        if r.rc ≠ 0 then .ok [some r]
        else
          let runs ← lookUps heap appends (popped + 1) stack r.cache r.rest
          .ok (some r :: runs)
      else .error .outside
    else do
      let runs ← lookUps heap appends (popped + 1) stack cache stdin
      .ok (none :: runs)

/-- A run of the helper that uses the cache: the options of the user, the stack that the decision graph left,
what the user types, and the outcomes of the appends. -/
structure CacheMount where
  user : Option CStr
  stack : List (Option CStr)
  stdin : List UInt8
  appends : ℕ → Option ℕ

/-- No append is cut short. -/
def CacheMount.Complete (m : CacheMount) : Prop := ∀ k n, m.appends k = some n → sigLine ≤ n

/-- The codes of the lookups, by the number of the parameter. -/
def lookupCode (runs : List (Option Lookup)) (popped : ℕ) (_ : CStr) : ℤ :=
  ((runs[popped]?.join).map Lookup.rc).getD 0

/-- `ecryptfs_do_mount` with the cache: what it comes to, and the lookups. -/
def mountWithCache (heap : Heap) (m : CacheMount) (cache : Option (List UInt8)) :
    Except Fault (MountCall × List (Option Lookup)) :=
  match strippedOpts m.user with
  | none => .ok (.fault, [])
  | some _ => do
    let runs ← lookUps heap m.appends 0 (some (lit "ecryptfs_unlink_sigs") :: m.stack) cache m.stdin
    .ok (doMount true (lookupCode runs) m.user m.stack, runs)

/-- The cache after some lookups. -/
def cacheAfter (cache : Option (List UInt8)) (runs : List Lookup) : Option (List UInt8) :=
  runs.foldl (fun _ r => r.cache) cache

/-- Runs of the helper, one after the other, with the lookups of each. -/
def cacheRun (heap : Heap) : List CacheMount → Option (List UInt8) → Except Fault (List (MountCall × List Lookup))
  | [], _ => .ok []
  | m :: ms, cache => do
    let (call, runs) ← mountWithCache heap m cache
    let mounts ← cacheRun heap ms (cacheAfter cache (runs.filterMap id))
    .ok ((call, runs.filterMap id) :: mounts)

/-- The user has the signature remembered. -/
def Lookup.Remembers (r : Lookup) (t : SigText) : Prop :=
  r.sig = t ∧ r.append = some (.ok (lit "yes")) ∧ r.rc = 0

theorem ok_of_bind {ε α β : Type} {x : Except ε α} {f : α → Except ε β} {b : β} (bound : x >>= f = .ok b) :
    ∃ a, x = .ok a ∧ f a = .ok b := by
  cases x with
  | error e => cases bound
  | ok a => exact ⟨a, rfl, bound⟩

variable {heap : Heap} {sig : SigText} {written : Option ℕ} {cache : Option (List UInt8)} {stdin : List UInt8}
  {r : Lookup}

/-- Without another call in between, the steps of `ecryptfs_append_sig` come to the same, and its write goes to
the end of the file. -/
theorem appendSig_steps {n : ℕ} (complete : sigLine ≤ n) (cache : Option (List UInt8)) :
    Relation.ReflTransGen (HarmlessStep fun _ : Unit => sig) ⟨fun _ => .open_, cache⟩
      ⟨fun _ => .returned 0, (appendSig sig (some n) cache).2⟩ := by
  let s : CacheState Unit := ⟨fun _ => .open_, cache⟩
  let s₁ : CacheState Unit := { s.goto () .seek with file := some s.content }
  let s₂ : CacheState Unit := s₁.goto () (.write s₁.content.length)
  have first : HarmlessStep (fun _ : Unit => sig) s s₁ :=
    ⟨(), .opened rfl, harmless_of_running (show s.pc () = .open_ from rfl) (by simp)⟩
  have second : HarmlessStep (fun _ : Unit => sig) s₁ s₂ :=
    ⟨(), .sought rfl, harmless_of_running (show s₁.pc () = .seek from rfl) (by simp)⟩
  have third : HarmlessStep (fun _ : Unit => sig) s₂ { s₂.goto () (.returned 0) with
      file := some (overwrite 0 s₂.content s₁.content.length (sig.1 ++ lit "\n")) } :=
    ⟨(), .written rfl, fun i place => .inl (AppendPc.write.inj place).symm⟩
  have whole : (sig.1 ++ lit "\n").take n = sig.1 ++ lit "\n" :=
    List.take_of_length_le ((length_line sig).trans_le complete)
  have ended : (⟨fun _ => .returned 0, (appendSig sig (some n) cache).2⟩ : CacheState Unit) =
      { s₂.goto () (.returned 0) with
        file := some (overwrite 0 s₂.content s₁.content.length (sig.1 ++ lit "\n")) } := by
    unfold appendSig
    dsimp only
    rw [whole]
    congr 1
  rw [ended]
  exact ((Relation.ReflTransGen.single first).tail second).tail third

/-- A signature that is appended completely is stored, and the others stay. -/
theorem stored_appendSig {n : ℕ} (complete : sigLine ≤ n) (whole : sigLine ∣ (cache.getD []).length) :
    (appendSig sig (some n) cache).1 = 0 ∧ sigLine ∣ ((appendSig sig (some n) cache).2.getD []).length ∧
      ∀ t, Stored t ((appendSig sig (some n) cache).2.getD []) ↔ Stored t (cache.getD []) ∨ t = sig := by
  have initial : (⟨fun _ => .open_, cache⟩ : CacheState Unit).Initial := ⟨fun _ => rfl, whole⟩
  obtain ⟨aligned, right⟩ := harmless_run initial (appendSig_steps complete cache)
  refine ⟨if_neg (not_lt.mpr complete), aligned.whole, fun t => (cacheRight_iff.mp right t).trans ?_⟩
  refine or_congr_right ⟨?_, ?_⟩
  · rintro ⟨_, -, same⟩
    exact same.symm
  · rintro rfl
    exact ⟨(), rfl, rfl⟩

theorem readAnswer_error {rc : ℤ} {rest : List UInt8} (failed : readAnswer heap stdin = .ok (.error rc, rest)) :
    rc ≠ 0 := by
  obtain ⟨r, -, answered⟩ := ok_of_bind failed
  obtain ⟨code, -⟩ := Prod.mk.inj (Except.ok.inj answered)
  split_ifs at code with nonzero
  obtain rfl := Except.error.inj code
  exact nonzero

/-- Where there is no answer, the code says so. -/
theorem askYesno_error {tries : ℕ} {rc : ℤ} {rest : List UInt8}
    (failed : askYesno heap tries stdin = .ok (.error rc, rest)) : rc ≠ 0 := by
  induction tries generalizing stdin with
  | zero => exact readAnswer_error failed
  | succ tries ih =>
    obtain ⟨⟨answer, left⟩, read, failed⟩ := ok_of_bind failed
    cases answer with
    | error code =>
      obtain ⟨same, -⟩ := Prod.mk.inj (Except.ok.inj failed)
      obtain rfl := Except.error.inj same
      exact readAnswer_error read
    | ok yesno =>
      dsimp only at failed
      split_ifs at failed
      · exact ih failed
      · cases failed

theorem checkSig_code (sig : SigText) (file : Option (List UInt8)) (flags : UInt32) :
    (checkSig sig file flags).1 = 0 := by
  unfold checkSig
  cases file with
  | none => rfl
  | some content =>
    dsimp only
    split_ifs <;> rfl

/-- A call that remembers nothing leaves the cache as it was. -/
theorem stored_unchanged (same : r.cache = cache) (nothing : r.append ≠ some (.ok (lit "yes")) ∨ r.rc ≠ 0)
    (t : SigText) : Stored t (r.cache.getD []) ↔ Stored t (cache.getD []) ∨ r.Remembers t := by
  rw [same]
  refine (or_iff_left fun remembers => ?_).symm
  rcases nothing with notYes | failed
  · exact notYes remembers.2.1
  · exact failed remembers.2.2

/-- What a call of `process_sig` does.  Only about a signature that is not stored there is a question, only an
answer of `yes` lets the mount proceed, and what is remembered is stored behind the rest. -/
theorem processSig_spec (complete : ∀ n, written = some n → sigLine ≤ n) (whole : sigLine ∣ (cache.getD []).length)
    (done : processSig heap sig written cache stdin = .ok r) : r.sig = sig ∧ sigLine ∣ (r.cache.getD []).length ∧
      (r.proceed = none ↔ Stored sig (cache.getD [])) ∧
      (r.rc = 0 → r.proceed = none ∨ r.proceed = some (.ok (lit "yes"))) ∧
      ∀ t, Stored t (r.cache.getD []) ↔ Stored t (cache.getD []) ∨ r.Remembers t := by
  have found := checkSig_flag sig cache 0
  unfold processSig at done
  dsimp only at done
  rw [checkSig_code] at done
  simp only [ne_eq, not_true_eq_false, false_or] at done
  split_ifs at done with clear
  · obtain rfl := Except.ok.inj done
    exact ⟨rfl, whole, iff_of_true rfl (found.mp clear), fun _ => .inl rfl, stored_unchanged rfl (.inl (by simp))⟩
  · have absent := mt found.mpr clear
    obtain ⟨⟨answer, rest⟩, first, done⟩ := ok_of_bind done
    cases answer with
    | error rc =>
      obtain rfl := Except.ok.inj done
      exact ⟨rfl, whole, iff_of_false (by simp) absent, fun success => absurd success (askYesno_error first),
        stored_unchanged rfl (.inl (by simp))⟩
    | ok yesno =>
      dsimp only at done
      split_ifs at done with yes
      · subst yes
        obtain ⟨⟨answer, rest⟩, -, done⟩ := ok_of_bind done
        cases answer with
        | error rc =>
          obtain rfl := Except.ok.inj done
          exact ⟨rfl, whole, iff_of_false (by simp) absent, fun _ => .inr rfl, stored_unchanged rfl (.inl (by simp))⟩
        | ok again =>
          obtain rfl := Except.ok.inj done
          by_cases remember : again = lit "yes"
          · subst remember
            cases written with
            | none =>
              exact ⟨rfl, whole, iff_of_false (by simp) absent, fun _ => .inr rfl,
                stored_unchanged rfl (.inr (show -eio ≠ 0 by decide))⟩
            | some n =>
              obtain ⟨success, whole', stored⟩ := @stored_appendSig sig cache n (complete n rfl) whole
              refine ⟨rfl, whole', iff_of_false (by simp) absent, fun _ => .inr rfl, fun t => ?_⟩
              exact (stored t).trans (or_congr_right ⟨fun same => ⟨same.symm, rfl, success⟩, fun h => h.1.symm⟩)
          · rw [if_neg remember]
            exact ⟨rfl, whole, iff_of_false (by simp) absent, fun _ => .inr rfl,
              stored_unchanged rfl (.inl (by simpa using remember))⟩
      · obtain rfl := Except.ok.inj done
        exact ⟨rfl, whole, iff_of_false (by simp) absent, fun success => absurd success (show ecanceled ≠ 0 by decide),
          stored_unchanged rfl (.inl (by simp))⟩

/-! ## Runs -/

/-- Lookups one after the other, each with the cache that the one before it has left. -/
inductive Lookups (heap : Heap) : Option (List UInt8) → List Lookup → Prop
  | nil {cache : Option (List UInt8)} : Lookups heap cache []
  | cons {cache : Option (List UInt8)} {sig : SigText} {written : Option ℕ} {stdin : List UInt8} {r : Lookup}
      {runs : List Lookup} (complete : ∀ n, written = some n → sigLine ≤ n)
      (done : processSig heap sig written cache stdin = .ok r) (behind : Lookups heap r.cache runs) :
      Lookups heap cache (r :: runs)

theorem Lookups.append {runs runs' : List Lookup} (first : Lookups heap cache runs)
    (second : Lookups heap (cacheAfter cache runs) runs') : Lookups heap cache (runs ++ runs') := by
  induction first with
  | nil => exact second
  | cons complete done _ ih => exact .cons complete done (ih second)

/-- The lookups of one mount. -/
theorem lookUps_chain {appends : ℕ → Option ℕ} (complete : ∀ k n, appends k = some n → sigLine ≤ n) {popped : ℕ}
    {stack : List (Option CStr)} {runs : List (Option Lookup)}
    (looked : lookUps heap appends popped stack cache stdin = .ok runs) :
    Lookups heap cache (runs.filterMap id) := by
  induction stack generalizing popped cache stdin runs with
  | nil =>
    obtain rfl := Except.ok.inj looked
    exact .nil
  | cons val stack ih =>
    cases val with
    | none =>
      obtain rfl := Except.ok.inj looked
      exact .nil
    | some val =>
      unfold lookUps at looked
      split_ifs at looked with isSig fits
      · obtain ⟨r, done, looked⟩ := ok_of_bind looked
        split_ifs at looked
        · obtain rfl := Except.ok.inj looked
          exact .cons (complete popped) done .nil
        · obtain ⟨runs, rest, looked⟩ := ok_of_bind looked
          obtain rfl := Except.ok.inj looked
          exact .cons (complete popped) done (ih rest)
      · obtain ⟨runs, rest, looked⟩ := ok_of_bind looked
        obtain rfl := Except.ok.inj looked
        have behind := ih rest
        exact behind

/-- The lookups of one run of the helper. -/
theorem mountWithCache_chain {m : CacheMount} (complete : m.Complete) {call : MountCall}
    {runs : List (Option Lookup)} (mounted : mountWithCache heap m cache = .ok (call, runs)) :
    Lookups heap cache (runs.filterMap id) := by
  unfold mountWithCache at mounted
  split at mounted
  · obtain ⟨-, rfl⟩ := Prod.mk.inj (Except.ok.inj mounted)
    exact .nil
  · obtain ⟨runs', looked, mounted⟩ := ok_of_bind mounted
    obtain ⟨-, rfl⟩ := Prod.mk.inj (Except.ok.inj mounted)
    exact lookUps_chain complete looked

theorem cacheRun_chain {ms : List CacheMount} (complete : ∀ m ∈ ms, m.Complete)
    {mounts : List (MountCall × List Lookup)} (run : cacheRun heap ms cache = .ok mounts) :
    Lookups heap cache (mounts.flatMap Prod.snd) := by
  induction ms generalizing cache mounts with
  | nil =>
    obtain rfl := Except.ok.inj run
    exact .nil
  | cons m ms ih =>
    obtain ⟨⟨call, runs⟩, mounted, run⟩ := ok_of_bind run
    obtain ⟨mounts, rest, run⟩ := ok_of_bind run
    obtain rfl := Except.ok.inj run
    exact (mountWithCache_chain (complete m List.mem_cons_self) mounted).append
      (ih (fun m' among => complete m' (List.mem_cons_of_mem _ among)) rest)

/-- The lines of the cache stay aligned. -/
theorem Lookups.whole {runs : List Lookup} (chain : Lookups heap cache runs)
    (whole : sigLine ∣ (cache.getD []).length) : sigLine ∣ ((cacheAfter cache runs).getD []).length := by
  induction chain with
  | nil => exact whole
  | cons complete done _ ih => exact ih (processSig_spec complete whole done).2.1

/-- What lookups one after the other know and ask. -/
theorem Lookups.known {runs : List Lookup} (chain : Lookups heap cache runs)
    (whole : sigLine ∣ (cache.getD []).length) :
    (∀ t, Stored t ((cacheAfter cache runs).getD []) ↔ Stored t (cache.getD []) ∨ ∃ e ∈ runs, e.Remembers t) ∧
      ∀ front r back, runs = front ++ r :: back →
        (r.proceed ≠ none ↔ ¬ (Stored r.sig (cache.getD []) ∨ ∃ e ∈ front, e.Remembers r.sig)) ∧
        (r.rc = 0 → r.proceed = none ∨ r.proceed = some (.ok (lit "yes"))) := by
  induction chain with
  | nil => exact ⟨fun t => by simp [cacheAfter], fun front r back split => by simp at split⟩
  | @cons cache sig written stdin first runs complete done _ ih =>
    obtain ⟨isSig, whole', asked, yes, stored⟩ := processSig_spec complete whole done
    obtain ⟨after, later⟩ := ih whole'
    refine ⟨fun t => ?_, fun front r back split => ?_⟩
    · change Stored t ((cacheAfter first.cache runs).getD []) ↔ _
      rw [after, stored, List.exists_mem_cons_iff, or_assoc]
    · cases front with
      | nil =>
        obtain ⟨rfl, -⟩ := List.cons.inj split
        refine ⟨?_, yes⟩
        rw [isSig, ne_eq, asked]
        simp
      | cons e front =>
        obtain ⟨rfl, behind⟩ := List.cons.inj split
        obtain ⟨asks, proceeds⟩ := later front r back behind
        refine ⟨?_, proceeds⟩
        rw [asks, stored, List.exists_mem_cons_iff, or_assoc]

/-- A loop that gets to the end of the stack has looked up every signature on it. -/
theorem lookUps_covers {appends : ℕ → Option ℕ} {popped : ℕ} {stack : List (Option CStr)}
    {runs : List (Option Lookup)} {code : ℕ → CStr → ℤ} {newOpts opts : Option CStr}
    (complete : ∀ k n, appends k = some n → sigLine ≤ n) (whole : sigLine ∣ (cache.getD []).length)
    (looked : lookUps heap appends popped stack cache stdin = .ok runs)
    (codes : ∀ k val, code (popped + k) val = lookupCode runs k val)
    (ended : popParameters true code popped newOpts stack = .ok opts) {val : CStr}
    (among : val ∈ poppedFrom stack) (isSig : (lit "ecryptfs_sig=").isPrefixOf val = true) :
    ∃ r, some r ∈ runs ∧ r.rc = 0 ∧ r.sig.1 = (val.drop 13).take sigSizeHex := by
  induction stack generalizing popped cache stdin runs newOpts with
  | nil => cases among
  | cons entry stack ih =>
    cases entry with
    | none => cases among
    | some v =>
      have shifted : ∀ {e runs'}, runs = e :: runs' → ∀ k val,
          code (popped + 1 + k) val = lookupCode runs' k val := by
        rintro e runs' rfl k val
        rw [Nat.add_right_comm]
        exact codes (k + 1) val
      have here_or : val = v ∨ val ∈ poppedFrom stack := by
        obtain ⟨inside, nonempty⟩ := List.mem_filter.mp among
        rw [List.takeWhile_cons_of_pos rfl, List.filterMap_cons_some (rfl : id (some v) = some v)] at inside
        exact (List.mem_cons.mp inside).imp_right fun behind => List.mem_filter.mpr ⟨behind, nonempty⟩
      have current := codes 0 (v.drop 13)
      unfold popParameters at ended
      dsimp only at ended
      split_ifs at ended with goesOn
      unfold lookUps at looked
      split_ifs at looked with vSig fits
      · obtain ⟨r, done, looked⟩ := ok_of_bind looked
        obtain ⟨rSig, whole', -⟩ := processSig_spec (complete popped) whole done
        have zero : code popped (v.drop 13) = 0 := by
          simpa [sigCode, vSig] using goesOn
        have isR : ∀ {runs'}, runs = some r :: runs' → r.rc = 0 := by
          rintro runs' rfl
          exact current.symm.trans zero
        split_ifs at looked with failed
        · obtain rfl := Except.ok.inj looked
          exact absurd (isR rfl) failed
        · obtain ⟨runs', rest, looked⟩ := ok_of_bind looked
          obtain rfl := Except.ok.inj looked
          rcases here_or with rfl | behind
          · exact ⟨r, List.mem_cons_self, isR rfl, congrArg Subtype.val rSig⟩
          · obtain ⟨r', inside, success, same⟩ := ih whole' rest (shifted rfl) ended behind
            exact ⟨r', List.mem_cons_of_mem _ inside, success, same⟩
      · obtain ⟨runs', rest, looked⟩ := ok_of_bind looked
        obtain rfl := Except.ok.inj looked
        rcases here_or with rfl | behind
        · exact absurd isSig vSig
        · obtain ⟨r, inside, success, same⟩ := ih whole rest (shifted rfl) ended behind
          exact ⟨r, List.mem_cons_of_mem _ inside, success, same⟩

/-- In runs of the helper the user is asked about exactly those signatures that are neither in the cache nor
have been remembered; what is remembered is in the cache, with what was there; and options are only passed on
after each of the signatures was known or confirmed. -/
structure AsksOnce (cache : Option (List UInt8)) (ms : List CacheMount)
    (mounts : List (MountCall × List Lookup)) : Prop where
  asked : ∀ front r back, mounts.flatMap Prod.snd = front ++ r :: back →
    (r.proceed ≠ none ↔ ¬ (Stored r.sig (cache.getD []) ∨ ∃ e ∈ front, e.Remembers r.sig))
  stored : ∀ t, Stored t ((cacheAfter cache (mounts.flatMap Prod.snd)).getD []) ↔
    Stored t (cache.getD []) ∨ ∃ e ∈ mounts.flatMap Prod.snd, e.Remembers t
  passed : ∀ p ∈ ms.zip mounts, ∀ opts, p.2.1 = .passed opts → ∀ val ∈ parameters p.1.stack,
    (lit "ecryptfs_sig=").isPrefixOf val = true → ∃ r ∈ p.2.2, r.sig.1 = (val.drop 13).take sigSizeHex ∧
      (r.proceed = none ∨ r.proceed = some (.ok (lit "yes")))

/-- The signatures of a mount that passes its options on. -/
theorem mountWithCache_covers {m : CacheMount} (complete : m.Complete) (whole : sigLine ∣ (cache.getD []).length)
    {opts : CStr} {runs : List (Option Lookup)} (mounted : mountWithCache heap m cache = .ok (.passed opts, runs))
    {val : CStr} (among : val ∈ parameters m.stack) (isSig : (lit "ecryptfs_sig=").isPrefixOf val = true) :
    ∃ r ∈ runs.filterMap id, r.rc = 0 ∧ r.sig.1 = (val.drop 13).take sigSizeHex := by
  unfold mountWithCache at mounted
  split at mounted
  · cases (Prod.mk.inj (Except.ok.inj mounted)).1
  · obtain ⟨runs', looked, mounted⟩ := ok_of_bind mounted
    obtain ⟨passed, rfl⟩ := Prod.mk.inj (Except.ok.inj mounted)
    obtain ⟨newOpts, -, popped⟩ := doMount_passed passed
    have codes : ∀ k val, lookupCode runs' (0 + k) val = lookupCode runs' k val := by
      intro k val
      rw [Nat.zero_add]
    obtain ⟨r, inside, success, same⟩ := lookUps_covers complete whole looked codes popped among isSig
    exact ⟨r, List.mem_filterMap.mpr ⟨some r, inside, rfl⟩, success, same⟩

theorem cacheRun_covers {ms : List CacheMount} (complete : ∀ m ∈ ms, m.Complete)
    (whole : sigLine ∣ (cache.getD []).length) {mounts : List (MountCall × List Lookup)}
    (run : cacheRun heap ms cache = .ok mounts) {p : CacheMount × MountCall × List Lookup}
    (among : p ∈ ms.zip mounts) {opts val : CStr} (passed : p.2.1 = .passed opts) (inside : val ∈ parameters p.1.stack)
    (isSig : (lit "ecryptfs_sig=").isPrefixOf val = true) :
    ∃ r ∈ p.2.2, r.rc = 0 ∧ r.sig.1 = (val.drop 13).take sigSizeHex := by
  induction ms generalizing cache mounts with
  | nil => cases among
  | cons m ms ih =>
    obtain ⟨⟨call, runs⟩, mounted, run⟩ := ok_of_bind run
    obtain ⟨mounts, rest, run⟩ := ok_of_bind run
    obtain rfl := Except.ok.inj run
    have completeHere := complete m List.mem_cons_self
    rcases List.mem_cons.mp among with rfl | later
    · obtain rfl : call = .passed opts := passed
      exact mountWithCache_covers completeHere whole mounted inside isSig
    · exact ih (fun m' among => complete m' (List.mem_cons_of_mem _ among))
        ((mountWithCache_chain completeHere mounted).whole whole) rest later

/-- **Nothing is mounted with an unknown signature unasked.** -/
theorem asksOnce_of_run {ms : List CacheMount} (complete : ∀ m ∈ ms, m.Complete)
    (whole : sigLine ∣ (cache.getD []).length) {mounts : List (MountCall × List Lookup)}
    (run : cacheRun heap ms cache = .ok mounts) : AsksOnce cache ms mounts := by
  obtain ⟨stored, known⟩ := (cacheRun_chain complete run).known whole
  refine ⟨fun front r back split => (known front r back split).1, stored, ?_⟩
  have confirmed : ∀ r ∈ mounts.flatMap Prod.snd,
      r.rc = 0 → r.proceed = none ∨ r.proceed = some (.ok (lit "yes")) := by
    intro r among
    obtain ⟨front, back, split⟩ := List.append_of_mem among
    exact (known front r back split).2
  intro p among opts passed val inside isSig
  obtain ⟨r, looked, success, same⟩ := cacheRun_covers complete whole run among passed inside isSig
  have mounted : p.2 ∈ mounts := (List.of_mem_zip among).2
  exact ⟨r, looked, same, confirmed r (List.mem_flatMap.mpr ⟨p.2, mounted, looked⟩) success⟩

/-- A user who confirms a signature and has it remembered. -/
def firstMount : CacheMount where
  user := none
  stack := [some (lit "ecryptfs_key_bytes=16"), some (lit "ecryptfs_sig=0123456789abcdef"), none]
  stdin := lit "yes\nyes\n"
  appends := fun _ => some sigLine

/-- The same mount at the next login, at which nothing can be read. -/
def nextMount : CacheMount := { firstMount with stdin := [] }

theorem asksOnce_of_run_again :
    ∃ mounts, cacheRun (evenHeap 0) [firstMount, nextMount] none = .ok mounts ∧
      AsksOnce none [firstMount, nextMount] mounts := by
  have complete : ∀ m ∈ [firstMount, nextMount], m.Complete := by
    intro m among k n written
    rcases List.mem_pair.mp among with rfl | rfl <;> exact (Option.some.inj written).le
  have runs : (cacheRun (evenHeap 0) [firstMount, nextMount] none).toOption.isSome = true := by decide +kernel
  cases run : cacheRun (evenHeap 0) [firstMount, nextMount] none with
  | error f => rw [run] at runs; cases runs
  | ok mounts => exact ⟨mounts, rfl, asksOnce_of_run complete (dvd_zero _) run⟩

end Ecryptfs
