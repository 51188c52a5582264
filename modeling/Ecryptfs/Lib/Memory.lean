import Mathlib.Data.List.GetD
import Mathlib.Tactic

/-!
# Memory behind a pointer

The bytes behind a pointer are a function of the offset.  A buffer whose first bytes are known is
the list of these followed by whatever lies beyond (`holding`); `slice` is what a copy of `n` bytes
takes from an offset.  A slice that stays inside the known bytes does not depend on the rest.
-/

namespace Memory

/-- The bytes at the offsets of a pointer. -/
abbrev Bytes := ℕ → UInt8

/-- A memory that starts with the bytes `known` and goes on as `beyond`. -/
def holding (known : List UInt8) (beyond : Bytes) : Bytes :=
  fun i => known.getD i (beyond (i - known.length))

/-- The `n` bytes from offset `i` on. -/
def slice (m : Bytes) (i n : ℕ) : List UInt8 := (List.range n).map fun k => m (i + k)

@[simp] theorem length_slice (m : Bytes) (i n : ℕ) : (slice m i n).length = n := by simp [slice]

theorem slice_add (m : Bytes) (i a b : ℕ) : slice m i (a + b) = slice m i a ++ slice m (i + a) b := by
  simp [slice, List.range_add, Function.comp_def, Nat.add_assoc]

theorem slice_one (m : Bytes) (i : ℕ) : slice m i 1 = [m i] := rfl

/-- The offsets a slice looks at. -/
def offsets (i n : ℕ) : List ℕ := (List.range n).map (i + ·)

theorem mem_offsets {i n k : ℕ} : k ∈ offsets i n ↔ i ≤ k ∧ k < i + n := by
  simp only [offsets, List.mem_map, List.mem_range]
  constructor
  · rintro ⟨a, ha, rfl⟩
    omega
  · rintro ⟨low, high⟩
    exact ⟨k - i, by omega, by omega⟩

/-- A slice of at least one byte stays below a limit if its end does. -/
theorem offsets_lt_iff {i n limit : ℕ} (some_ : 1 ≤ n) :
    (∀ k ∈ offsets i n, k < limit) ↔ i + n ≤ limit := by
  simp only [mem_offsets]
  constructor
  · intro below
    have := below (i + n - 1) (by omega)
    omega
  · intro below k hk
    omega

theorem holding_of_lt {known : List UInt8} {beyond : Bytes} {i : ℕ} (inside : i < known.length) :
    holding known beyond i = known.getD i 0 := by
  simp [holding, inside]

theorem holding_cons_zero (b : UInt8) (known : List UInt8) (beyond : Bytes) :
    holding (b :: known) beyond 0 = b := rfl

theorem holding_cons_succ (b : UInt8) (known : List UInt8) (beyond : Bytes) (i : ℕ) :
    holding (b :: known) beyond (i + 1) = holding known beyond i := by
  simp [holding]

theorem holding_nil (beyond : Bytes) : holding [] beyond = beyond := by
  funext i
  simp [holding]

theorem holding_append (a b : List UInt8) (beyond : Bytes) : holding (a ++ b) beyond =
    holding a (holding b beyond) := by
  induction a with
  | nil => rw [List.nil_append, holding_nil]
  | cons x a ih =>
    funext i
    cases i with
    | zero => rfl
    | succ i => rw [List.cons_append, holding_cons_succ, holding_cons_succ, ih]

/-- What follows a known prefix, seen from its end. -/
theorem holding_length_add (a : List UInt8) (beyond : Bytes) (i : ℕ) :
    holding a beyond (a.length + i) = beyond i := by
  induction a with
  | nil => rw [holding_nil, List.length_nil, Nat.zero_add]
  | cons x a ih => rw [List.length_cons, Nat.add_right_comm, holding_cons_succ, ih]

/-- The known bytes are the first slice. -/
theorem slice_holding (known : List UInt8) (beyond : Bytes) :
    slice (holding known beyond) 0 known.length = known := by
  refine List.ext_getElem (by simp) fun i hi hi' => ?_
  simp [slice, holding, hi']

/-- A slice inside the known bytes. -/
theorem slice_holding_inside {known : List UInt8} {beyond : Bytes} {i n : ℕ}
    (inside : i + n ≤ known.length) : slice (holding known beyond) i n = (known.drop i).take n := by
  have split : known = known.take i ++ ((known.drop i).take n ++ (known.drop i).drop n) := by
    rw [List.take_append_drop, List.take_append_drop]
  have first : (known.take i).length = i := List.length_take_of_le (by omega)
  have second : ((known.drop i).take n).length = n := by
    rw [List.length_take, List.length_drop]
    omega
  have whole := slice_holding ((known.drop i).take n) (holding ((known.drop i).drop n) beyond)
  rw [second] at whole
  rw [← whole]
  refine List.map_congr_left fun k _ => ?_
  conv_lhs => rw [split, holding_append, holding_append]
  have := holding_length_add (known.take i) (holding ((known.drop i).take n)
    (holding ((known.drop i).drop n) beyond)) k
  rw [first] at this
  rw [this, Nat.zero_add]

/-- A slice behind a known prefix. -/
theorem slice_holding_append (a b : List UInt8) (beyond : Bytes) :
    slice (holding (a ++ b) beyond) a.length b.length = b := by
  rw [slice_holding_inside (by rw [List.length_append]), List.drop_left, List.take_length]

/-! ## Writing -/

/-- The memory after the bytes `bs` were written from offset `i` on. -/
def write (m : Bytes) (i : ℕ) (bs : List UInt8) : Bytes :=
  fun k => if i ≤ k ∧ k < i + bs.length then bs.getD (k - i) 0 else m k

/-- Writing behind a known prefix. -/
theorem write_holding (a bs : List UInt8) (m : Bytes) :
    write (holding a m) a.length bs = holding a (write m 0 bs) := by
  funext k
  by_cases inside : k < a.length
  · rw [write, if_neg (by omega), holding_of_lt inside, holding_of_lt inside]
  · obtain ⟨j, rfl⟩ := Nat.exists_eq_add_of_le (not_lt.mp inside)
    rw [holding_length_add]
    unfold write
    rw [holding_length_add]
    simp

/-- What is written at the start covers the known bytes of its length. -/
theorem write_zero (old bs rest : List UInt8) (same : old.length = bs.length) (beyond : Bytes) :
    write (holding (old ++ rest) beyond) 0 bs = holding (bs ++ rest) beyond := by
  rw [holding_append, holding_append]
  funext k
  by_cases inside : k < bs.length
  · rw [write, if_pos (by omega), holding_of_lt inside, Nat.sub_zero]
  · obtain ⟨j, rfl⟩ := Nat.exists_eq_add_of_le (not_lt.mp inside)
    rw [write, if_neg (by omega), holding_length_add, ← same, holding_length_add]

/-- Writing over a part of the known bytes. -/
theorem write_inside (a old bs rest : List UInt8) (same : old.length = bs.length) (beyond : Bytes) :
    write (holding (a ++ (old ++ rest)) beyond) a.length bs =
      holding (a ++ (bs ++ rest)) beyond := by
  rw [holding_append, write_holding, write_zero old bs rest same, ← holding_append]

/-- Writing over the end of the known bytes and what lies beyond. -/
theorem write_over (a old bs : List UInt8) (enough : old.length ≤ bs.length) (beyond : Bytes) :
    ∃ beyond', write (holding (a ++ old) beyond) a.length bs =
      holding (a ++ bs.take old.length) beyond' := by
  rw [holding_append, write_holding]
  refine ⟨fun k => write (holding old beyond) 0 bs (old.length + k), ?_⟩
  rw [holding_append]
  congr 1
  have length : (bs.take old.length).length = old.length := List.length_take_of_le enough
  funext k
  by_cases inside : k < old.length
  · rw [holding_of_lt (by omega), write, if_pos (by omega), Nat.sub_zero, List.getD_eq_getElem?_getD,
      List.getD_eq_getElem?_getD, List.getElem?_take_of_lt inside]
  · obtain ⟨j, rfl⟩ := Nat.exists_eq_add_of_le (not_lt.mp inside)
    have behind := holding_length_add (bs.take old.length)
      (fun k => write (holding old beyond) 0 bs (old.length + k)) j
    rw [length] at behind
    exact behind.symm

theorem write_nil (m : Bytes) (i : ℕ) : write m i [] = m := by
  funext k
  rw [write, List.length_nil, if_neg (by omega)]

/-- What follows the bytes `p` is moved down over them, and the end filled with `z`. -/
theorem write_move_down (a p r z : List UInt8) (same : z.length = p.length) (beyond : Bytes) :
    write (write (holding (a ++ (p ++ r)) beyond) a.length
        (slice (holding (a ++ (p ++ r)) beyond) (a.length + p.length) r.length))
      (a.length + r.length) z = holding (a ++ (r ++ z)) beyond := by
  have read : slice (holding (a ++ (p ++ r)) beyond) (a.length + p.length) r.length = r := by
    rw [← List.append_assoc, ← List.length_append]
    exact slice_holding_append (a ++ p) r beyond
  have front : ((p ++ r).take r.length).length = r.length :=
    List.length_take_of_le (by rw [List.length_append]; omega)
  have back : ((p ++ r).drop r.length).length = z.length := by
    rw [List.length_drop, List.length_append, same]
    omega
  have first := write_inside a ((p ++ r).take r.length) r ((p ++ r).drop r.length) front beyond
  have second := write_inside (a ++ r) ((p ++ r).drop r.length) z [] back beyond
  rw [List.take_append_drop] at first
  rw [List.append_nil, List.append_nil, List.append_assoc, List.append_assoc, List.length_append] at second
  rw [read, first, second]

/-! ## Writing one piece after the other -/

/-- The memory after several writes, each with its offset. -/
def writeAll (m : Bytes) (pieces : List (ℕ × List UInt8)) : Bytes :=
  pieces.foldl (fun m piece => write m piece.1 piece.2) m

/-- The pieces follow each other without a gap, from offset `i` to offset `j`. -/
def Contiguous : ℕ → List (ℕ × List UInt8) → ℕ → Prop
  | i, [], j => i = j
  | i, piece :: pieces, j => piece.1 = i ∧ Contiguous (i + piece.2.length) pieces j

/-- What is written at the start is known afterwards. -/
theorem write_start (m : Bytes) (bs : List UInt8) :
    write m 0 bs = holding bs fun k => m (bs.length + k) := by
  funext k
  by_cases inside : k < bs.length
  · rw [write, if_pos (by omega), holding_of_lt inside, Nat.sub_zero]
  · obtain ⟨j, rfl⟩ := Nat.exists_eq_add_of_le (not_lt.mp inside)
    rw [write, if_neg (by omega), holding_length_add]

/-- The end of what was written is written again, and maybe more. -/
theorem write_again (m : Bytes) (a old bs : List UInt8) (enough : old.length ≤ bs.length) :
    write (write m 0 (a ++ old)) a.length bs = write m 0 (a ++ bs) := by
  have rest : (fun k => m ((a ++ bs).length + k)) =
      fun k => write (write m 0 (a ++ old)) a.length bs ((a ++ bs).length + k) := by
    funext k
    rw [write, List.length_append, if_neg (by omega), write, List.length_append, if_neg (by omega)]
  rw [write_start m (a ++ bs), rest]
  funext k
  by_cases inside : k < (a ++ bs).length
  · rw [holding_of_lt inside]
    rw [List.length_append] at inside
    by_cases before : k < a.length
    · rw [write, if_neg (by omega), write, List.length_append, if_pos (by omega), Nat.sub_zero,
        List.getD_append _ _ _ _ before, List.getD_append _ _ _ _ before]
    · rw [write, if_pos (by omega), List.getD_append_right _ _ _ _ (by omega)]
  · obtain ⟨j, rfl⟩ := Nat.exists_eq_add_of_le (not_lt.mp inside)
    rw [holding_length_add]

/-- Pieces written behind a known prefix are known afterwards. -/
theorem writeAll_contiguous {pieces : List (ℕ × List UInt8)} {a : List UInt8} {j : ℕ} (m : Bytes)
    (contiguous : Contiguous a.length pieces j) :
    ∃ m', writeAll (holding a m) pieces = holding (a ++ pieces.flatMap Prod.snd) m' ∧
      (a ++ pieces.flatMap Prod.snd).length = j := by
  induction pieces generalizing a m with
  | nil =>
    rw [List.flatMap_nil, List.append_nil]
    exact ⟨m, rfl, contiguous⟩
  | cons piece pieces ih =>
    obtain ⟨here, rest⟩ := contiguous
    rw [← List.length_append] at rest
    obtain ⟨m', written, length⟩ := ih (fun k => m (piece.2.length + k)) rest
    have first : write (holding a m) piece.1 piece.2 =
        holding (a ++ piece.2) fun k => m (piece.2.length + k) := by
      rw [here, write_holding, write_start, holding_append]
    refine ⟨m', ?_, ?_⟩
    · rw [writeAll, List.foldl_cons, first]
      exact written.trans (by rw [List.flatMap_cons, List.append_assoc])
    · rwa [List.flatMap_cons, ← List.append_assoc]

/-- A buffer that is filled by pieces holds them, whatever was in it before. -/
theorem slice_writeAll {pieces : List (ℕ × List UInt8)} {size : ℕ}
    (fills : Contiguous 0 pieces size) (m : Bytes) :
    slice (writeAll m pieces) 0 size = pieces.flatMap Prod.snd := by
  have fromStart : Contiguous ([] : List UInt8).length pieces size := fills
  obtain ⟨m', written, length⟩ := writeAll_contiguous m fromStart
  rw [holding_nil, List.nil_append] at written
  rw [List.nil_append] at length
  rw [written, ← length]
  exact slice_holding _ _

/-! ## Texts -/

theorem slice_prefix (m : Bytes) (i : ℕ) {a b : ℕ} (le : a ≤ b) : slice m i a <+: slice m i b := by
  obtain ⟨c, rfl⟩ := Nat.exists_eq_add_of_le le
  rw [slice_add]
  exact List.prefix_append _ _

/-- The bytes from offset `i` up to the first zero byte. -/
def TextAt (m : Bytes) (i : ℕ) (s : List UInt8) : Prop := slice m i (s.length + 1) = s ++ [0] ∧ 0 ∉ s

/-- A text that ends earlier than another one at the same place is the same. -/
theorem TextAt.eq_of_le {m : Bytes} {i : ℕ} {s t : List UInt8} (atS : TextAt m i s)
    (atT : TextAt m i t) (le : s.length ≤ t.length) : s = t := by
  have isPrefix : s ++ [0] <+: t ++ [0] := by
    rw [← atS.1, ← atT.1]
    exact slice_prefix m i (Nat.succ_le_succ le)
  rcases le.lt_or_eq with shorter | same
  · have inside : s ++ [0] <+: t :=
      List.prefix_of_prefix_length_le isPrefix (List.prefix_append t [0]) (by simpa using shorter)
    exact absurd (inside.subset (by simp)) atT.2
  · exact List.append_cancel_right (isPrefix.eq_of_length (by simp [same]))

/-- There is one text at a place. -/
theorem TextAt.unique {m : Bytes} {i : ℕ} {s t : List UInt8} (atS : TextAt m i s)
    (atT : TextAt m i t) : s = t := by
  rcases Nat.le_total s.length t.length with le | le
  · exact atS.eq_of_le atT le
  · exact (atT.eq_of_le atS le).symm

/-- A text among known bytes. -/
theorem textAt_holding (a b : List UInt8) {s : List UInt8} (noNul : 0 ∉ s) (beyond : Bytes) :
    TextAt (holding (a ++ (s ++ [0]) ++ b) beyond) a.length s := by
  refine ⟨?_, noNul⟩
  rw [holding_append]
  have known := slice_holding_append a (s ++ [0]) (holding b beyond)
  rwa [List.length_append, List.length_singleton] at known

end Memory
