import Ecryptfs.Graph.Queue

/-!
# The list that is evaluated

The options of a mount are put behind those of the rc file by `ecryptfs_nvp_list_union`, which copies
the text of every value, a null pointer being printed.  Without an rc file and with no name given twice
the result is a copy of the options, and what a quiet evaluation finds in it does not depend on their
order.
-/

namespace Ecryptfs

/-! ## The union -/

/-- `copy_nv_pair`; a null pointer is printed. -/
def copyNvPair (src : NameValPair) : NameValPair := { src with value := some (printed src.value) }

/-- One turn of the loop of `ecryptfs_nvp_list_union`: where duplicates are not allowed, every entry with
the name gets the value. -/
def unionEntry (allowedDuplicates : List CStr) (dst : List NameValPair) (src : NameValPair) :
    List NameValPair :=
  if src.name ∈ allowedDuplicates then dst ++ [copyNvPair src]
  else if src.name ∈ dst.map NameValPair.name then
    dst.map fun e => if e.name = src.name then { e with value := some (printed src.value) } else e
  else dst ++ [copyNvPair src]

/-- `ecryptfs_nvp_list_union`. -/
def nvpListUnion (dst src : List NameValPair) (allowedDuplicates : List CStr) : List NameValPair :=
  src.foldl (unionEntry allowedDuplicates) dst

theorem copyNvPair_name (e : NameValPair) : (copyNvPair e).name = e.name := rfl

theorem names_copied (nvps : List NameValPair) :
    (nvps.map copyNvPair).map NameValPair.name = nvps.map NameValPair.name := by
  rw [List.map_map]
  rfl

/-- Names that are all new are appended. -/
theorem nvpListUnion_append (allowed : List CStr) {dst src : List NameValPair}
    (once : ((dst ++ src).map NameValPair.name).Nodup) :
    nvpListUnion dst src allowed = dst ++ src.map copyNvPair := by
  induction src generalizing dst with
  | nil => exact (List.append_nil dst).symm
  | cons e src ih =>
    have new : e.name ∉ dst.map NameValPair.name := by
      rw [List.map_append, List.nodup_append] at once
      exact fun old => once.2.2 _ old _ List.mem_cons_self rfl
    have entry : unionEntry allowed dst e = dst ++ [copyNvPair e] := by
      unfold unionEntry
      rw [if_neg new, ite_self]
    have once' : (((dst ++ [copyNvPair e]) ++ src).map NameValPair.name).Nodup := by
      rwa [List.append_assoc, List.map_append, List.singleton_append, List.map_cons, copyNvPair_name,
        ← List.map_cons, ← List.map_append]
    have rest := ih once'
    unfold nvpListUnion at rest ⊢
    rw [List.foldl_cons, entry, rest, List.append_assoc, List.map_cons]
    rfl

/-- Without an rc file the options are copied. -/
theorem nvpListUnion_nil (allowed : List CStr) {src : List NameValPair}
    (once : (src.map NameValPair.name).Nodup) : nvpListUnion [] src allowed = src.map copyNvPair :=
  nvpListUnion_append allowed once

theorem queue_copied (x : CStr) (nvps : List NameValPair) :
    queue x (nvps.map copyNvPair) = (queue x nvps).map fun v => some (printed v) := by
  induction nvps with
  | nil => rfl
  | cons e nvps ih =>
    rw [List.map_cons, queue_cons, queue_cons, ih]
    change (if e.name = x ∧ e.processed = false then _ else _) = _
    split_ifs
    · rfl
    · rfl

/-! ## The order of the options -/

/-- With every name given once, at most one entry is found for a name. -/
theorem queue_short {nvps : List NameValPair} (once : (nvps.map NameValPair.name).Nodup) (x : CStr) :
    (queue x nvps).length ≤ 1 := by
  induction nvps with
  | nil => exact Nat.zero_le 1
  | cons e nvps ih =>
    rw [List.map_cons, List.nodup_cons] at once
    rw [queue_cons]
    split_ifs with found
    · have none_ : queue x nvps = [] := by
        rw [queue_eq_nil]
        rintro ⟨u, among, isName, -⟩
        exact once.1 (List.mem_map.mpr ⟨u, among, isName.trans found.1.symm⟩)
      rw [none_]
      exact le_rfl
    · exact ih once.2

/-- The order of options with different names does not matter for what is found. -/
theorem queue_perm {nvps nvps' : List NameValPair} (reordered : nvps.Perm nvps')
    (once : (nvps'.map NameValPair.name).Nodup) (x : CStr) : queue x nvps = queue x nvps' := by
  have same : (queue x nvps).Perm (queue x nvps') := (reordered.filter _).map NameValPair.value
  have short := queue_short once x
  rcases found : queue x nvps' with _ | ⟨v, rest⟩
  · rw [found] at same
    exact same.eq_nil
  · rw [found, List.length_cons] at short
    have none_ : rest = [] := List.eq_nil_of_length_eq_zero (by omega)
    rw [found, none_] at same
    rw [none_, List.perm_singleton.mp same]

theorem getVerbosity_found {nvps : List NameValPair} (text : CStr)
    (once : (nvps.map NameValPair.name).Nodup)
    (found : queue (lit "verbosity") nvps = [some text]) : getVerbosity nvps = .ok (atoi text) := by
  unfold getVerbosity
  induction nvps with
  | nil => cases found
  | cons e nvps ih =>
    rw [List.map_cons, List.nodup_cons] at once
    rw [queue_cons] at found
    by_cases isVerbosity : e.name = lit "verbosity"
    · have fresh : e.processed = false := by
        by_contra processed
        rw [if_neg fun both => processed both.2] at found
        have pending : Pending (lit "verbosity") nvps := by
          rw [← not_not (a := Pending _ _), ← queue_eq_nil, found]
          exact List.cons_ne_nil _ _
        obtain ⟨u, among, isName, -⟩ := pending
        exact once.1 (List.mem_map.mpr ⟨u, among, isName.trans isVerbosity.symm⟩)
      rw [if_pos ⟨isVerbosity, fresh⟩] at found
      rw [List.find?_cons_of_pos (by simpa using isVerbosity)]
      simp only [(List.cons.inj found).1]
    · rw [if_neg fun both => isVerbosity both.1] at found
      rw [List.find?_cons_of_neg (by simpa using isVerbosity)]
      exact ih once.2 found

/-! ## Lists from tables -/

/-- The list with the options of a table that are given; a given option may have no value. -/
def entries (table : List (String × Option (Option CStr))) : List NameValPair :=
  table.filterMap fun row => row.2.map fun value => ⟨lit row.1, value, false⟩

theorem entries_cons (row : String × Option (Option CStr)) (table : List (String × Option (Option CStr))) :
    entries (row :: table) =
      (row.2.map fun value => (⟨lit row.1, value, false⟩ : NameValPair)).toList ++ entries table := by
  unfold entries
  rw [List.filterMap_cons]
  cases row.2 <;> rfl

/-- A name of the list is a name of the table whose option is given. -/
theorem named_entries {table : List (String × Option (Option CStr))} {x : CStr} :
    x ∈ (entries table).map NameValPair.name ↔ ∃ row ∈ table, lit row.1 = x ∧ row.2 ≠ none := by
  unfold entries
  simp only [List.mem_map, List.mem_filterMap]
  constructor
  · rintro ⟨e, ⟨row, inTable, given⟩, rfl⟩
    obtain ⟨value, isGiven, rfl⟩ := Option.map_eq_some_iff.mp given
    exact ⟨row, inTable, rfl, by rw [isGiven]; exact Option.some_ne_none value⟩
  · rintro ⟨row, inTable, rfl, given⟩
    obtain ⟨value, isGiven⟩ := Option.ne_none_iff_exists'.mp given
    exact ⟨⟨lit row.1, value, false⟩, ⟨row, inTable, by rw [isGiven]; rfl⟩, rfl⟩

theorem entries_once {table : List (String × Option (Option CStr))}
    (once : (table.map Prod.fst).Nodup) : ((entries table).map NameValPair.name).Nodup := by
  induction table with
  | nil => exact List.nodup_nil
  | cons row table ih =>
    rw [List.map_cons, List.nodup_cons] at once
    rw [entries_cons, List.map_append]
    cases row.2 with
    | none => exact ih once.2
    | some value =>
      refine List.nodup_cons.mpr ⟨fun again => ?_, ih once.2⟩
      obtain ⟨row', inTable, same, -⟩ := named_entries.mp again
      exact once.1 (List.mem_map.mpr ⟨row', inTable, lit_inj.mp same⟩)

/-- What is found for the name of an option of the table. -/
theorem queue_entries {table : List (String × Option (Option CStr))}
    (once : (table.map Prod.fst).Nodup) {name : String} (given : Option (Option CStr))
    (inTable : (name, given) ∈ table) : queue (lit name) (entries table) = given.toList := by
  induction table with
  | nil => cases inTable
  | cons row table ih =>
    rw [List.map_cons, List.nodup_cons] at once
    rw [entries_cons, queue_append]
    rcases List.mem_cons.mp inTable with rfl | inTable
    · have others : queue (lit name) (entries table) = [] := by
        rw [queue_eq_nil]
        rintro ⟨e, among, isName, -⟩
        obtain ⟨row', inTable, same, -⟩ :=
          named_entries.mp (List.mem_map.mpr ⟨e, among, isName⟩)
        exact once.1 (List.mem_map.mpr ⟨row', inTable, lit_inj.mp same⟩)
      rw [others, List.append_nil]
      cases given with
      | none => rfl
      | some value => exact (queue_cons _ _ []).trans (if_pos ⟨rfl, rfl⟩)
    · have other : row.1 ≠ name := by
        rintro rfl
        exact once.1 (List.mem_map.mpr ⟨_, inTable, rfl⟩)
      have first : queue (lit name)
          (row.2.map fun value => (⟨lit row.1, value, false⟩ : NameValPair)).toList = [] := by
        rw [queue_eq_nil]
        rintro ⟨e, among, isName, -⟩
        obtain ⟨value, -, rfl⟩ := Option.map_eq_some_iff.mp (Option.mem_toList.mp among)
        exact other (lit_inj.mp isName)
      rw [first, List.nil_append, ih once.2 inTable]

theorem named_queue {table : List (String × Option (Option CStr))} {x : CStr} :
    x ∈ (entries table).map NameValPair.name ↔ queue x (entries table) ≠ [] := by
  have fresh : ∀ e ∈ entries table, e.processed = false := by
    intro e among
    obtain ⟨row, -, given⟩ := List.mem_filterMap.mp among
    obtain ⟨value, -, rfl⟩ := Option.map_eq_some_iff.mp given
    rfl
  rw [ne_eq, queue_eq_nil, not_not, List.mem_map]
  constructor
  · rintro ⟨e, among, isName⟩
    exact ⟨e, among, isName, fresh e among⟩
  · rintro ⟨e, among, isName, -⟩
    exact ⟨e, among, isName⟩

/-- Nothing is found for a name that is not in the table. -/
theorem queue_entries_absent {table : List (String × Option (Option CStr))} {name : String}
    (absent : name ∉ table.map Prod.fst) : queue (lit name) (entries table) = [] := by
  rw [queue_eq_nil]
  rintro ⟨e, among, isName, -⟩
  obtain ⟨row, inTable, same, -⟩ := named_entries.mp (List.mem_map.mpr ⟨e, among, isName⟩)
  exact absent (List.mem_map.mpr ⟨row, inTable, lit_inj.mp same⟩)

end Ecryptfs
