import Mathlib.Data.List.Basic
import Mathlib.Tactic

/-!
# Texts of separated fields

A text is a sequence of fields with a separator between two of them; there is always at least one, which
may be empty.  `keep` leaves out the fields that are not wanted, with their separators.  Where empty
fields are wanted, all fields of what is left are wanted, and it never makes a text longer.
-/

namespace Separated

variable {α : Type*} [DecidableEq α] (sep : α)

/-- The fields of a text. -/
def fields (s : List α) : List (List α) := s.splitOn sep

omit [DecidableEq α] in
/-- The text with the given fields. -/
def join (ts : List (List α)) : List α := [sep].intercalate ts

/-- The text without the fields that are not wanted. -/
def keep (wanted : List α → Bool) (s : List α) : List α := join sep ((fields sep s).filter wanted)

variable {sep} {s t : List α} {ts ts' : List (List α)}

theorem fields_ne_nil (s : List α) : fields sep s ≠ [] := List.splitOn_ne_nil sep s

theorem fields_of_notMem (whole : sep ∉ s) : fields sep s = [s] := List.splitOn_eq_singleton whole

theorem fields_append (s t : List α) : fields sep (s ++ sep :: t) = fields sep s ++ fields sep t :=
  List.splitOn_append_cons_self s t

variable (sep) in
theorem join_fields (s : List α) : join sep (fields sep s) = s := List.intercalate_splitOn sep

theorem fields_join (some_ : ts ≠ []) (whole : ∀ t ∈ ts, sep ∉ t) : fields sep (join sep ts) = ts :=
  List.splitOn_intercalate sep whole some_

omit [DecidableEq α] in
/-- The parts of a list between separators contain none. -/
theorem eq_false_of_mem_splitOnP {p : α → Bool} (among : t ∈ s.splitOnP p) : ∀ c ∈ t, p c = false := by
  induction s generalizing t with
  | nil =>
    rw [List.splitOnP_nil, List.mem_singleton] at among
    rw [among]
    exact fun c inside => absurd inside List.not_mem_nil
  | cons c s ih =>
    rw [List.splitOnP_cons_eq_if_modifyHead] at among
    split_ifs at among with isSep
    · rcases List.mem_cons.mp among with rfl | later
      · exact fun c inside => absurd inside List.not_mem_nil
      · exact ih later
    · obtain ⟨first, rest, split⟩ := List.exists_cons_of_ne_nil (List.splitOnP_ne_nil p s)
      rw [split, List.modifyHead_cons] at among
      rw [split] at ih
      rcases List.mem_cons.mp among with rfl | later
      · exact List.forall_mem_cons.mpr ⟨by simpa using isSep, ih List.mem_cons_self⟩
      · exact ih (List.mem_cons_of_mem first later)

theorem sep_notMem_of_mem_fields (among : t ∈ fields sep s) : sep ∉ t := by
  rw [fields, List.splitOn_eq_splitOnP] at among
  intro inside
  simpa using eq_false_of_mem_splitOnP among sep inside

/-! ## The length of a text -/

omit [DecidableEq α]

@[simp] theorem join_nil : join sep [] = [] := List.intercalate_nil

@[simp] theorem join_singleton (t : List α) : join sep [t] = t := List.intercalate_singleton

theorem join_cons (t : List α) (some_ : ts ≠ []) : join sep (t :: ts) = t ++ sep :: join sep ts := by
  rw [join, List.intercalate_cons_of_ne_nil some_, join, List.append_assoc, List.singleton_append]

theorem join_concat (some_ : ts ≠ []) (t : List α) : join sep (ts ++ [t]) = join sep ts ++ sep :: t := by
  induction ts with
  | nil => exact absurd rfl some_
  | cons u ts ih =>
    rcases eq_or_ne ts [] with rfl | more
    · rw [List.singleton_append, join_cons u (List.cons_ne_nil t []), join_singleton, join_singleton]
    · rw [List.cons_append, join_cons u (by simp), ih more, join_cons u more, List.append_assoc,
        List.cons_append]

/-- Each field counts with the separator behind it, the last one as well. -/
theorem length_join (sep : α) (some_ : ts ≠ []) :
    (join sep ts).length + 1 = (ts.map fun t => t.length + 1).sum := by
  induction ts with
  | nil => exact absurd rfl some_
  | cons t ts ih =>
    rcases eq_or_ne ts [] with rfl | more
    · simp
    · rw [join_cons t more, List.map_cons, List.sum_cons, ← ih more, List.length_append,
        List.length_cons]
      omega

theorem length_join_le_of_sublist (sep : α) (sub : ts'.Sublist ts) :
    (join sep ts').length ≤ (join sep ts).length := by
  rcases eq_or_ne ts' [] with rfl | some'
  · exact Nat.zero_le _
  · have some_ : ts ≠ [] := by
      rintro rfl
      exact some' (List.sublist_nil.mp sub)
    have whole := length_join sep some_
    have part := length_join sep some'
    have := (sub.map fun t => t.length + 1).sum_le_sum fun _ _ => Nat.zero_le _
    omega

theorem length_join_map (sep : α) (f : List α → List α) (some_ : ts ≠ []) :
    (join sep (ts.map f)).length + 1 = (ts.map fun t => (f t).length + 1).sum := by
  rw [length_join sep (by simpa using some_), List.map_map]
  rfl

/-- Fields none of which gets longer. -/
theorem length_join_map_le {f : List α → List α} (le : ∀ t ∈ ts, (f t).length ≤ t.length) :
    (join sep (ts.map f)).length ≤ (join sep ts).length := by
  rcases eq_or_ne ts [] with rfl | some_
  · exact le_rfl
  · have whole := length_join sep some_
    have part := length_join_map sep f some_
    have := List.sum_le_sum fun t among => Nat.add_le_add_right (le t among) 1
    omega

/-- Fields of which one gets shorter. -/
theorem length_join_map_lt {f : List α → List α} (le : ∀ t ∈ ts, (f t).length ≤ t.length)
    (lt : ∃ t ∈ ts, (f t).length < t.length) :
    (join sep (ts.map f)).length < (join sep ts).length := by
  have some_ : ts ≠ [] := by
    rintro rfl
    obtain ⟨t, among, -⟩ := lt
    exact List.not_mem_nil among
  have whole := length_join sep some_
  have part := length_join_map sep f some_
  have := List.sum_lt_sum (fun t => (f t).length + 1) (fun t => t.length + 1)
    (fun t among => Nat.succ_le_succ (le t among))
    (lt.imp fun t less => ⟨less.1, Nat.succ_lt_succ less.2⟩)
  omega

theorem mem_join {c : α} (inside : c ∈ join sep ts) : c = sep ∨ ∃ t ∈ ts, c ∈ t := by
  induction ts with
  | nil => exact absurd inside List.not_mem_nil
  | cons t ts ih =>
    rcases eq_or_ne ts [] with rfl | more
    · rw [join_singleton] at inside
      exact .inr ⟨t, List.mem_cons_self, inside⟩
    · rw [join_cons t more, List.mem_append, List.mem_cons] at inside
      rcases inside with first | isSep | later
      · exact .inr ⟨t, List.mem_cons_self, first⟩
      · exact .inl isSep
      · exact (ih later).imp_right fun ⟨u, among, inside⟩ => ⟨u, List.mem_cons_of_mem t among, inside⟩

theorem mem_join_of_mem {c : α} (among : t ∈ ts) (inside : c ∈ t) : c ∈ join sep ts := by
  induction ts with
  | nil => exact absurd among List.not_mem_nil
  | cons u ts ih =>
    rcases eq_or_ne ts [] with rfl | more
    · rw [join_singleton, ← List.mem_singleton.mp among]
      exact inside
    · rw [join_cons u more, List.mem_append, List.mem_cons]
      rcases List.mem_cons.mp among with rfl | later
      · exact .inl inside
      · exact .inr (.inr (ih later))

/-! ## Parts of a text -/

/-- A part without a separator lies on one side of it. -/
theorem infix_sides (whole : sep ∉ t) {a b : List α} :
    t <:+: a ++ sep :: b ↔ t <:+: a ∨ t <:+: b := by
  have front : ∀ {u : List α}, sep ∉ u → u <+: sep :: b → u = [] := by
    intro u whole isPrefix
    rcases List.prefix_cons_iff.mp isPrefix with isNil | ⟨rest, rfl, -⟩
    · exact isNil
    · exact absurd List.mem_cons_self whole
  constructor
  · intro inside
    rcases List.infix_append_iff.mp inside with left | right | ⟨u, v, rfl, isSuffix, isPrefix⟩
    · exact .inl left
    · rcases List.infix_cons_iff.mp right with isPrefix | right
      · rw [front whole isPrefix]
        exact .inl (List.nil_infix)
      · exact .inr right
    · rw [front (fun inside => whole (List.mem_append_right u inside)) isPrefix, List.append_nil]
      exact .inl isSuffix.isInfix
  · rintro (left | right)
    · exact left.trans (List.prefix_append a _).isInfix
    · exact right.trans ((List.suffix_cons sep b).trans (List.suffix_append a _)).isInfix

/-- A part without a separator is a part of one field. -/
theorem infix_join (whole : sep ∉ t) (some_ : ts ≠ []) :
    t <:+: join sep ts ↔ ∃ u ∈ ts, t <:+: u := by
  induction ts with
  | nil => exact absurd rfl some_
  | cons u ts ih =>
    rcases eq_or_ne ts [] with rfl | more
    · simp
    · rw [join_cons u more, infix_sides whole, ih more, List.exists_mem_cons_iff]

/-! ## Leaving out fields -/

variable [DecidableEq α] {wanted : List α → Bool}

/-- The characters of a field are characters of the text. -/
theorem mem_of_mem_fields {c : α} (among : t ∈ fields sep s) (inside : c ∈ t) : c ∈ s := by
  rw [← join_fields sep s]
  exact mem_join_of_mem among inside

theorem infix_fields (whole : sep ∉ t) : t <:+: s ↔ ∃ u ∈ fields sep s, t <:+: u := by
  rw [← infix_join whole (fields_ne_nil s), join_fields]

theorem length_keep_le (wanted : List α → Bool) (s : List α) :
    (keep sep wanted s).length ≤ s.length := by
  have shorter := length_join_le_of_sublist sep
    (List.filter_sublist (p := wanted) (l := fields sep s))
  rwa [join_fields] at shorter

theorem fields_keep (some_ : (fields sep s).filter wanted ≠ []) :
    fields sep (keep sep wanted s) = (fields sep s).filter wanted :=
  fields_join some_ fun _ among => sep_notMem_of_mem_fields (List.mem_filter.mp among).1

/-- The wanted fields are left; a text without any has the empty one. -/
theorem mem_fields_keep (among : t ∈ fields sep (keep sep wanted s)) :
    t = [] ∨ t ∈ (fields sep s).filter wanted := by
  rcases eq_or_ne ((fields sep s).filter wanted) [] with none_ | some_
  · rw [keep, none_, join_nil, fields_of_notMem List.not_mem_nil, List.mem_singleton] at among
    exact .inl among
  · rw [fields_keep some_] at among
    exact .inr among

theorem wanted_of_mem_fields_keep (empty : wanted [] = true) (among : t ∈ fields sep (keep sep wanted s)) :
    wanted t = true := by
  rcases mem_fields_keep among with rfl | kept
  · exact empty
  · exact (List.mem_filter.mp kept).2

end Separated
