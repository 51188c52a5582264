import Ecryptfs.Private.Counter

/-!
# Runs of the mount counter

The counter file is rewritten in place, so after many changes a short number stands in front of what is
left of longer ones.  Nevertheless the file implements a natural number that is counted up, counted down
as far as zero, and set to zero: `counterFile_refines` compares each call of `bump_counter`, and each
number that a later call reads, with this number.
-/

namespace Ecryptfs

/-- A use of the counter file. -/
inductive CounterOp where
  | increment
  | decrement
  | zero
  deriving DecidableEq, Repr

namespace CounterOp

/-- The number that a use returns, and the counter file that it leaves. -/
def run : CounterOp → CStr → ℤ × CStr
  | increment => Ecryptfs.increment
  | decrement => Ecryptfs.decrement
  | zero => Ecryptfs.zero

/-- What a use is meant to do to the number of sessions. -/
def count : CounterOp → ℕ → ℕ
  | increment, n => n + 1
  | decrement, n => n - 1
  | zero, _ => 0

/-- Every use is a call of `bump_counter`, so the number it leaves in the file is the one it returns. -/
theorem counterValue_run (op : CounterOp) (text : CStr) :
    counterValue (op.run text).2 = (op.run text).1 := by
  cases op with
  | increment => exact counterValue_bumpCounter text 1
  | decrement => exact counterValue_bumpCounter text (-1)
  | zero => exact counterValue_bumpCounter text (-maxint + 1)

/-- A number below `MAXINT` is counted as it is meant to be. -/
theorem run_count (op : CounterOp) {text : CStr} {n : ℕ} (reads : counterValue text = n)
    (below : (n : ℤ) < maxint) : (op.run text).1 = op.count n := by
  unfold maxint at below
  cases op with
  | increment =>
    rw [run, Ecryptfs.increment, bumpCounter_count, reads, count,
      toInt_of_fits (by omega) (by omega)]
    push_cast
    omega
  | decrement =>
    rw [run, Ecryptfs.decrement, bumpCounter_count, reads, count,
      toInt_of_fits (by omega) (by omega)]
    omega
  | zero =>
    rw [run, Ecryptfs.zero, bumpCounter_count, reads, count, maxint,
      toInt_of_fits (by omega) (by omega)]
    push_cast
    omega

end CounterOp

/-- The counter file after some uses, which is absent or empty at the beginning. -/
def counterFile (ops : List CounterOp) : CStr := ops.foldl (fun text op => (op.run text).2) []

/-- The number of sessions after some uses. -/
def sessionCount (ops : List CounterOp) : ℕ := ops.foldl (fun n op => op.count n) 0

theorem counterFile_snoc (before : List CounterOp) (op : CounterOp) :
    counterFile (before ++ [op]) = (op.run (counterFile before)).2 := by
  rw [counterFile, List.foldl_append]
  rfl

theorem sessionCount_snoc (before : List CounterOp) (op : CounterOp) :
    sessionCount (before ++ [op]) = op.count (sessionCount before) := by
  rw [sessionCount, List.foldl_append]
  rfl

/-- The number of sessions stays below `MAXINT` all along. -/
def StaysBelow (ops : List CounterOp) : Prop :=
  ∀ before, before <+: ops → (sessionCount before : ℤ) < maxint

theorem StaysBelow.of_prefix {before ops : List CounterOp} (stays : StaysBelow ops)
    (begins : before <+: ops) : StaysBelow before :=
  fun earlier isPrefix => stays earlier (isPrefix.trans begins)

/-- What the next call reads is the number of sessions. -/
theorem counterValue_counterFile {ops : List CounterOp} (stays : StaysBelow ops) :
    counterValue (counterFile ops) = sessionCount ops := by
  induction ops using List.reverseRecOn with
  | nil => rfl
  | append_singleton before op ih =>
    have begins : before <+: before ++ [op] := List.prefix_append before [op]
    have reads := ih (stays.of_prefix begins)
    rw [counterFile_snoc, sessionCount_snoc, op.counterValue_run]
    exact op.run_count reads (stays before begins)

/-- **The counter file is a natural number.**  Along every sequence of uses during which the number of
sessions stays below `MAXINT`, each use returns, and each use finds in the file, the number counted so
far. -/
theorem counterFile_refines {ops : List CounterOp} (stays : StaysBelow ops) :
    (∀ (before : List CounterOp) (op : CounterOp) (after : List CounterOp),
        ops = before ++ op :: after →
      (op.run (counterFile before)).1 = sessionCount (before ++ [op])) ∧
    ∀ before, before <+: ops → counterValue (counterFile before) = sessionCount before := by
  have finds : ∀ before, before <+: ops → counterValue (counterFile before) = sessionCount before :=
    fun before begins => counterValue_counterFile (stays.of_prefix begins)
  refine ⟨?_, finds⟩
  rintro before op after rfl
  have begins : before <+: before ++ op :: after := List.prefix_append before (op :: after)
  rw [sessionCount_snoc]
  exact op.run_count (finds before begins) (stays before begins)

/-- Ten sessions are opened and one is closed again, which leaves a newline behind the number and its
own; then the counter is set to zero and used once more. -/
def tenAndBack : List CounterOp := List.replicate 10 .increment ++ [.decrement, .zero, .increment]

theorem counterFile_tenAndBack :
    counterFile (tenAndBack.take 11) = lit "9\n\n" ∧
      ((∀ (before : List CounterOp) (op : CounterOp) (after : List CounterOp),
          tenAndBack = before ++ op :: after →
        (op.run (counterFile before)).1 = sessionCount (before ++ [op])) ∧
      ∀ before, before <+: tenAndBack → counterValue (counterFile before) = sessionCount before) := by
  refine ⟨by decide +kernel, counterFile_refines ?_⟩
  have below : ∀ before ∈ tenAndBack.inits, (sessionCount before : ℤ) < maxint := by decide +kernel
  exact fun before begins => below before ((List.mem_inits before tenAndBack).mpr begins)

end Ecryptfs
