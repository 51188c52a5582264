import Ecryptfs.Lib.Memory

/-!
# Programs that read a memory

A program that copies slices out of a memory, and goes on depending on what it has copied.  `run` is
what it computes and `reads` the offsets it looks at.  Two memories that agree at these offsets are
the same to it.
-/

namespace Memory

/-- A program that reads a memory. -/
inductive Access (α : Type) where
  | done (a : α)
  /-- Copies `n` bytes from offset `i` on. -/
  | copy (i n : ℕ) (next : List UInt8 → Access α)

namespace Access

variable {α β : Type}

/-- The program followed by another one. -/
protected def bind : Access α → (α → Access β) → Access β
  | done a, f => f a
  | copy i n next, f => copy i n fun bs => (next bs).bind f

instance : Monad Access where
  pure := done
  bind := Access.bind

/-- `memcpy` out of the memory. -/
def memcpy (i n : ℕ) : Access (List UInt8) := copy i n done

/-- What the program computes. -/
def run (m : Bytes) : Access α → α
  | done a => a
  | copy i n next => (next (slice m i n)).run m

/-- The offsets the program looks at. -/
def reads (m : Bytes) : Access α → List ℕ
  | done _ => []
  | copy i n next => offsets i n ++ (next (slice m i n)).reads m

@[simp] theorem run_pure (m : Bytes) (a : α) : (pure a : Access α).run m = a := rfl

@[simp] theorem reads_pure (m : Bytes) (a : α) : (pure a : Access α).reads m = [] := rfl

@[simp] theorem run_memcpy (m : Bytes) (i n : ℕ) : (memcpy i n).run m = slice m i n := rfl

@[simp] theorem reads_memcpy (m : Bytes) (i n : ℕ) : (memcpy i n).reads m = offsets i n := by
  rw [memcpy, reads, reads, List.append_nil]

@[simp] theorem run_bind (m : Bytes) (p : Access α) (f : α → Access β) :
    (p >>= f).run m = (f (p.run m)).run m := by
  induction p with
  | done a => rfl
  | copy i n next ih => exact ih (slice m i n)

@[simp] theorem reads_bind (m : Bytes) (p : Access α) (f : α → Access β) :
    (p >>= f).reads m = p.reads m ++ (f (p.run m)).reads m := by
  induction p with
  | done a => rfl
  | copy i n next ih =>
    show offsets i n ++ ((next (slice m i n)) >>= f).reads m = _
    rw [ih, ← List.append_assoc]
    rfl

theorem slice_congr {m m' : Bytes} {i n : ℕ} (same : ∀ k ∈ offsets i n, m k = m' k) :
    slice m i n = slice m' i n := by
  refine List.map_congr_left fun k among => same (i + k) ?_
  exact List.mem_map_of_mem among

/-- **A program depends on what it reads only.** -/
theorem run_congr {m m' : Bytes} {p : Access α} (same : ∀ k ∈ p.reads m, m k = m' k) :
    p.run m = p.run m' := by
  induction p with
  | done a => rfl
  | copy i n next ih =>
    have here : slice m i n = slice m' i n :=
      slice_congr fun k among => same k (List.mem_append_left _ among)
    rw [run, run, ← here]
    exact ih _ fun k among => same k (List.mem_append_right _ among)

/-- A program that reads known bytes only does not depend on what lies beyond them. -/
theorem run_holding_congr {known : List UInt8} {p : Access α} {beyond : Bytes} (beyond' : Bytes)
    (inside : ∀ k ∈ p.reads (holding known beyond), k < known.length) :
    p.run (holding known beyond) = p.run (holding known beyond') := by
  refine run_congr fun k among => ?_
  rw [holding_of_lt (inside k among), holding_of_lt (inside k among)]

end Access

end Memory
