import Ecryptfs.Options.Union
import Ecryptfs.Lib.LinkedList

/-!
# The union of two lists in memory

`ecryptfs_nvp_list_union` walks along the list of options and changes the list it is merged into in
place: three cursors, one of which stays a node behind the end that is extended.  Each run of it that
starts from separate lists has one result, and there the list is what `nvpListUnion` says and the other
two are as before.  Every node owns its texts, and `malloc` succeeds.
-/

namespace Ecryptfs

open LinkedList

/-- `struct ecryptfs_name_val_pair`, as far as entries without children use it. -/
structure NvpNode where
  name : Option CStr
  value : Option CStr
  processed : Bool
  deriving DecidableEq, Repr

/-- The memory with the nodes.  The addresses from `top` on are not in use yet. -/
structure NvpHeap where
  entry : ℕ → NvpNode
  next : ℕ → Option ℕ
  top : ℕ

/-- The copy that `copy_nv_pair` makes; null pointers are printed. -/
def NvpNode.copy (src : NvpNode) : NvpNode :=
  ⟨some (printed src.name), some (printed src.value), src.processed⟩

namespace NvpHeap

/-- A new node behind `prev`, with a copy of `src`. -/
def insert (h : NvpHeap) (prev : ℕ) (src : NvpNode) : NvpHeap where
  entry := Function.update h.entry h.top src.copy
  next := Function.update (Function.update h.next prev (some h.top)) h.top none
  top := h.top + 1

/-- The value of a node is freed and printed anew. -/
def setValue (h : NvpHeap) (a : ℕ) (value : Option CStr) : NvpHeap :=
  { h with entry := Function.update h.entry a { h.entry a with value := some (printed value) } }

/-- `strcmp` finds no difference between the names of two nodes. -/
def sameName (h : NvpHeap) (a b : ℕ) : Bool :=
  decide ((h.entry b).name ≠ none ∧ (h.entry a).name = (h.entry b).name)

end NvpHeap

/-- What the loop over the destination carries: `prev_dst_cursor` and `found_match`. -/
structure Overwriting where
  heap : NvpHeap
  prev : ℕ
  foundMatch : Bool

/-- One turn of the loop over the destination, for the entry at `src`. -/
def overwriteTurn (src : ℕ) (s : Overwriting) (dst : ℕ) : Overwriting :=
  if s.heap.sameName src dst then
    ⟨s.heap.setValue dst (s.heap.entry src).value, dst, true⟩
  else { s with prev := dst }

/-- One turn of the loop over the source. -/
inductive UnionTurn (dst allowedDuplicates src : ℕ) (h : NvpHeap) : NvpHeap → Prop
  /-- An entry without a name is passed over. -/
  | unnamed (noName : (h.entry src).name = none) : UnionTurn dst allowedDuplicates src h h
  /-- `goto do_insert`, with both cursors at the end. -/
  | duplicate {ad prev : ℕ} (named : (h.entry src).name ≠ none)
      (listed : Search h.next (h.sameName src) (h.next allowedDuplicates) (some ad))
      (atEnd : Walk (fun _ => h.next) (fun a _ prev => prev = a) (h.next dst) dst prev) :
      UnionTurn dst allowedDuplicates src h (h.insert prev (h.entry src))
  | overwritten {s : Overwriting} (named : (h.entry src).name ≠ none)
      (unlisted : Search h.next (h.sameName src) (h.next allowedDuplicates) none)
      (walk : Walk (fun s => s.heap.next) (fun a s s' => s' = overwriteTurn src s a) (h.next dst)
        ⟨h, dst, false⟩ s)
      (found : s.foundMatch = true) : UnionTurn dst allowedDuplicates src h s.heap
  | inserted {s : Overwriting} (named : (h.entry src).name ≠ none)
      (unlisted : Search h.next (h.sameName src) (h.next allowedDuplicates) none)
      (walk : Walk (fun s => s.heap.next) (fun a s s' => s' = overwriteTurn src s a) (h.next dst)
        ⟨h, dst, false⟩ s)
      (missing : s.foundMatch = false) :
      UnionTurn dst allowedDuplicates src h (s.heap.insert s.prev (s.heap.entry src))

/-- `ecryptfs_nvp_list_union` on the lists behind three heads. -/
def NvpListUnion (dst src allowedDuplicates : ℕ) (h h' : NvpHeap) : Prop :=
  Walk NvpHeap.next (UnionTurn dst allowedDuplicates) (h.next src) h h'

/-! ## Lists in memory -/

/-- The node that holds an entry. -/
def NameValPair.node (e : NameValPair) : NvpNode := ⟨some e.name, e.value, e.processed⟩

/-- Behind `head` there are the nodes `as`, which hold `es`. -/
structure NvpHeap.Holds (h : NvpHeap) (head : ℕ) (as : List ℕ) (es : List NvpNode) : Prop where
  chain : Chain h.next (some head) (head :: as)
  entries : as.map h.entry = es
  inUse : ∀ a ∈ head :: as, a < h.top

/-- Two heaps that agree on a list. -/
theorem NvpHeap.Holds.congr {h h' : NvpHeap} {head : ℕ} {as : List ℕ} {es : List NvpNode}
    (holds : h.Holds head as es) (next : ∀ a ∈ head :: as, h'.next a = h.next a)
    (entry : ∀ a ∈ as, h'.entry a = h.entry a) (top : h.top ≤ h'.top) : h'.Holds head as es where
  chain := holds.chain.congr next
  entries := by
    rw [← holds.entries]
    exact List.map_congr_left entry
  inUse a among := (holds.inUse a among).trans_le top

theorem NvpHeap.Holds.ahead {h : NvpHeap} {head a : ℕ} {front l : List ℕ} {es : List NvpNode}
    (holds : h.Holds head (front ++ a :: l) es) : h.next a = l.head? :=
  holds.chain.2.behind.head

theorem NvpHeap.Holds.once {h : NvpHeap} {head : ℕ} {as : List ℕ} {es : List NvpNode}
    (holds : h.Holds head as es) : (head :: as).Nodup := holds.chain.nodup

/-- The last node of a list, or its head. -/
def lastNode (head : ℕ) (as : List ℕ) : ℕ := as.getLastD head

theorem dropLast_lastNode (head : ℕ) (as : List ℕ) :
    (head :: as).dropLast ++ [lastNode head as] = head :: as := by
  rw [lastNode, ← List.getLast_eq_getLastD]
  exact List.dropLast_append_getLast (List.cons_ne_nil head as)

theorem lastNode_append (head : ℕ) (as : List ℕ) (a : ℕ) : lastNode head (as ++ [a]) = a := by
  rw [lastNode, List.getLastD_concat]

theorem lastNode_mem (head : ℕ) (as : List ℕ) : lastNode head as ∈ head :: as := by
  rw [← dropLast_lastNode head as]
  exact List.mem_append_right _ List.mem_cons_self

/-- A new node behind the last one. -/
theorem NvpHeap.Holds.insert {h : NvpHeap} {head : ℕ} {as : List ℕ} {es : List NvpNode}
    (holds : h.Holds head as es) (src : NvpNode) :
    (h.insert (lastNode head as) src).Holds head (as ++ [h.top]) (es ++ [src.copy]) := by
  have new : h.top ∉ head :: as := fun among => lt_irrefl _ (holds.inUse _ among)
  refine ⟨?_, ?_, ?_⟩
  · have chain := holds.chain
    rw [← dropLast_lastNode head as] at chain new
    have longer := chain.append new
    rwa [dropLast_lastNode] at longer
  · rw [List.map_append, ← holds.entries]
    congr 1
    · refine List.map_congr_left fun a among => Function.update_of_ne ?_ _ _
      exact fun same => new (same ▸ List.mem_cons_of_mem head among)
    · exact congrArg (fun e => [e]) (Function.update_self ..)
  · intro a among
    rw [← List.cons_append, List.mem_append, List.mem_singleton] at among
    rcases among with old | rfl
    · exact Nat.lt_succ_of_lt (holds.inUse a old)
    · exact Nat.lt_succ_self _

/-! ## The loops over the destination -/

/-- The value of an entry with the name of `src` is replaced. -/
def overwriteValue (src e : NvpNode) : NvpNode :=
  if e.name = src.name then { e with value := some (printed src.value) } else e

section

variable {h : NvpHeap} {dst src : ℕ} {ds : List ℕ} {es : List NvpNode}

/-- The loop to the end of the destination. -/
theorem walk_end (holds : h.Holds dst ds es) (prev : ℕ) :
    Walk (fun _ => h.next) (fun a _ prev => prev = a) (h.next dst) dst prev ↔
      prev = lastNode dst ds := by
  have whole : ∃ last, (∀ prev, Walk (fun _ => h.next) (fun a _ prev => prev = a) ds.head? dst prev ↔
      prev = last) ∧ ∃ front, ds = front ++ [] ∧ last = lastNode dst front := by
    refine Walk.exists_unique (fun l prev => ∃ front, ds = front ++ l ∧ prev = lastNode dst front) ?_
      ⟨[], rfl, rfl⟩
    rintro a l prev ⟨front, rfl, -⟩
    refine ⟨a, fun _ => Iff.rfl, holds.ahead, front ++ [a], by simp, ?_⟩
    rw [lastNode_append]
  obtain ⟨last, walks, front, all, isLast⟩ := whole
  rw [List.append_nil] at all
  rw [holds.chain.2.head, walks, isLast, all]

/-- The state of the loop that overwrites, with the nodes of `front` behind it. -/
structure Overwritten (h : NvpHeap) (dst : ℕ) (e : NvpNode) (front : List ℕ) (s : Overwriting) :
    Prop where
  next : s.heap.next = h.next
  top : s.heap.top = h.top
  prev : s.prev = lastNode dst front
  foundMatch : s.foundMatch = decide (e.name ∈ front.map fun a => (h.entry a).name)
  visited : ∀ a ∈ front, s.heap.entry a = overwriteValue e (h.entry a)
  others : ∀ a ∉ front, s.heap.entry a = h.entry a

theorem Overwritten.turn {e : NvpNode} {front : List ℕ} {s : Overwriting} {a : ℕ}
    (before : Overwritten h dst e front s) (named : e.name ≠ none) (new : a ∉ front)
    (atSrc : h.entry src = e) (apart : src ∉ front) :
    Overwritten h dst e (front ++ [a]) (overwriteTurn src s a) := by
  have here : s.heap.entry a = h.entry a := before.others a new
  have there : s.heap.entry src = e := (before.others src apart).trans atSrc
  have same : s.heap.sameName src a = decide ((h.entry a).name = e.name) := by
    rw [NvpHeap.sameName, there, here, decide_eq_decide]
    constructor
    · exact fun both => both.2.symm
    · exact fun isName => ⟨isName.symm ▸ named, isName.symm⟩
  have known : e.name ∈ (front ++ [a]).map (fun a => (h.entry a).name) ↔
      e.name ∈ front.map (fun a => (h.entry a).name) ∨ (h.entry a).name = e.name := by
    rw [List.map_append, List.mem_append, List.map_singleton, List.mem_singleton]
    exact or_congr_right eq_comm
  by_cases isName : (h.entry a).name = e.name
  · have turned : overwriteTurn src s a = ⟨s.heap.setValue a e.value, a, true⟩ := by
      rw [overwriteTurn, same, if_pos (decide_eq_true isName), there]
    have written : { h.entry a with value := some (printed e.value) } = overwriteValue e (h.entry a) := by
      rw [overwriteValue, if_pos isName]
    rw [turned]
    refine ⟨before.next, before.top, (lastNode_append dst front a).symm, ?_, ?_, ?_⟩
    · exact (decide_eq_true (known.mpr (.inr isName))).symm
    · intro b among
      rcases List.mem_append.mp among with old | last
      · have other : b ≠ a := fun same => new (same ▸ old)
        exact (Function.update_of_ne other _ _).trans (before.visited b old)
      · obtain rfl := List.mem_singleton.mp last
        refine (Function.update_self ..).trans ?_
        rw [here, written]
    · intro b outside
      rw [List.mem_append, List.mem_singleton, not_or] at outside
      exact (Function.update_of_ne outside.2 _ _).trans (before.others b outside.1)
  · have turned : overwriteTurn src s a = { s with prev := a } := by
      rw [overwriteTurn, same, if_neg (by simp [isName])]
    rw [turned]
    refine ⟨before.next, before.top, (lastNode_append dst front a).symm, ?_, ?_, ?_⟩
    · refine before.foundMatch.trans (decide_eq_decide.mpr ?_)
      rw [known, or_iff_left isName]
    · intro b among
      rcases List.mem_append.mp among with old | last
      · exact before.visited b old
      · obtain rfl := List.mem_singleton.mp last
        show s.heap.entry b = _
        rw [here, overwriteValue, if_neg isName]
    · intro b outside
      rw [List.mem_append, List.mem_singleton, not_or] at outside
      exact before.others b outside.1

/-- The loop that overwrites. -/
theorem walk_overwrite (holds : h.Holds dst ds es) {e : NvpNode} (atSrc : h.entry src = e)
    (named : e.name ≠ none) (apart : src ∉ ds) :
    ∃ s, (∀ s', Walk (fun s => s.heap.next) (fun a s s' => s' = overwriteTurn src s a) (h.next dst)
      ⟨h, dst, false⟩ s' ↔ s' = s) ∧ Overwritten h dst e ds s := by
  have whole : ∃ s, (∀ s', Walk (fun s => s.heap.next) (fun a s s' => s' = overwriteTurn src s a)
      ds.head? ⟨h, dst, false⟩ s' ↔ s' = s) ∧
      ∃ front, ds = front ++ [] ∧ Overwritten h dst e front s := by
    refine Walk.exists_unique (fun l s => ∃ front, ds = front ++ l ∧ Overwritten h dst e front s) ?_
      ⟨[], rfl, ⟨rfl, rfl, rfl, rfl, fun _ among => absurd among List.not_mem_nil, fun _ _ => rfl⟩⟩
    rintro a l s ⟨front, rfl, before⟩
    have new : a ∉ front := by
      have once := (List.nodup_cons.mp holds.once).2
      exact fun among => (List.nodup_append.mp once).2.2 a among a List.mem_cons_self rfl
    have after := before.turn named new atSrc fun among => apart (List.mem_append_left _ among)
    refine ⟨overwriteTurn src s a, fun _ => Iff.rfl, ?_, front ++ [a], by simp, after⟩
    rw [after.next]
    exact holds.ahead
  obtain ⟨s, walks, front, all, final⟩ := whole
  rw [List.append_nil] at all
  rw [holds.chain.2.head]
  exact ⟨s, walks, all ▸ final⟩

/-- The destination after the loop that overwrites. -/
theorem Overwritten.holds {e : NvpNode} {s : Overwriting} (final : Overwritten h dst e ds s)
    (holds : h.Holds dst ds es) : s.heap.Holds dst ds (es.map (overwriteValue e)) where
  chain := by
    rw [final.next]
    exact holds.chain
  entries := by
    rw [← holds.entries, List.map_map]
    exact List.map_congr_left final.visited
  inUse := by
    rw [final.top]
    exact holds.inUse

end

/-! ## One entry -/

/-- What an entry does to the destination; one without a name does nothing. -/
def unionNode (allowed : List (Option CStr)) (dst : List NvpNode) (src : NvpNode) : List NvpNode :=
  if src.name = none then dst
  else if src.name ∈ allowed then dst ++ [src.copy]
  else if src.name ∈ dst.map NvpNode.name then dst.map (overwriteValue src)
  else dst ++ [src.copy]

/-- The search among the allowed duplicates. -/
theorem search_allowed {h : NvpHeap} {allowed : ℕ} (src : ℕ) {ads : List ℕ} {aes : List NvpNode}
    (holds : h.Holds allowed ads aes) (r : Option ℕ) :
    Search h.next (h.sameName src) (h.next allowed) r ↔ r = ads.find? (h.sameName src) := by
  constructor
  · exact fun search => search.eq_find? holds.chain.2
  · rintro rfl
    exact holds.chain.2.search _

theorem find_allowed {h : NvpHeap} {allowed src : ℕ} {ads : List ℕ} {aes : List NvpNode}
    (holds : h.Holds allowed ads aes) (named : (h.entry src).name ≠ none) :
    ads.find? (h.sameName src) = none ↔ (h.entry src).name ∉ aes.map NvpNode.name := by
  rw [← holds.entries, List.map_map, List.find?_eq_none, List.mem_map]
  constructor
  · rintro none_ ⟨a, among, isName⟩
    refine none_ a among (decide_eq_true ⟨?_, isName.symm⟩)
    exact fun noName => named (isName.symm.trans noName)
  · intro unlisted a among same
    exact unlisted ⟨a, among, (of_decide_eq_true same).2.symm⟩

/-- What a run does to the rest of the memory: the nodes it changes are those of the destination, and
those it adds are new. -/
structure Grows (h h' : NvpHeap) (dst : ℕ) (ds ds' : List ℕ) : Prop where
  kept : ∀ a < h.top, a ∉ dst :: ds → h'.next a = h.next a ∧ h'.entry a = h.entry a
  nodes : ∀ a ∈ ds', a ∈ ds ∨ h.top ≤ a
  top : h.top ≤ h'.top

theorem Grows.refl (h : NvpHeap) (dst : ℕ) (ds : List ℕ) : Grows h h dst ds ds :=
  ⟨fun _ _ _ => ⟨rfl, rfl⟩, fun _ among => .inl among, le_rfl⟩

theorem Grows.trans {h₀ h₁ h₂ : NvpHeap} {dst : ℕ} {ds₀ ds₁ ds₂ : List ℕ}
    (first : Grows h₀ h₁ dst ds₀ ds₁) (second : Grows h₁ h₂ dst ds₁ ds₂) :
    Grows h₀ h₂ dst ds₀ ds₂ where
  kept a inUse outside := by
    have outside' : a ∉ dst :: ds₁ := by
      intro among
      rcases List.mem_cons.mp among with rfl | among
      · exact outside List.mem_cons_self
      · rcases first.nodes a among with old | new
        · exact outside (List.mem_cons_of_mem dst old)
        · omega
    obtain ⟨next, entry⟩ := first.kept a inUse outside
    obtain ⟨next', entry'⟩ := second.kept a (inUse.trans_le first.top) outside'
    exact ⟨next'.trans next, entry'.trans entry⟩
  nodes a among := by
    rcases second.nodes a among with old | new
    · exact first.nodes a old
    · exact .inr (first.top.trans new)
  top := first.top.trans second.top

theorem grows_insert (h : NvpHeap) (dst : ℕ) (ds : List ℕ) (src : NvpNode) :
    Grows h (h.insert (lastNode dst ds) src) dst ds (ds ++ [h.top]) where
  kept a inUse outside := by
    have notNew : a ≠ h.top := inUse.ne
    have notLast : a ≠ lastNode dst ds := fun same => outside (same ▸ lastNode_mem dst ds)
    refine ⟨?_, Function.update_of_ne notNew _ _⟩
    exact (Function.update_of_ne notNew _ _).trans (Function.update_of_ne notLast _ _)
  nodes a among := by
    rcases List.mem_append.mp among with old | new
    · exact .inl old
    · exact .inr (List.mem_singleton.mp new).ge
  top := Nat.le_succ _

theorem Overwritten.grows {h : NvpHeap} {dst : ℕ} {ds : List ℕ} {e : NvpNode} {s : Overwriting}
    (final : Overwritten h dst e ds s) : Grows h s.heap dst ds ds where
  kept a _ outside := ⟨congrFun final.next a,
    final.others a fun among => outside (List.mem_cons_of_mem dst among)⟩
  nodes _ among := .inl among
  top := final.top.ge

section

variable {h : NvpHeap} {dst src allowed : ℕ} {ds ads : List ℕ} {es aes : List NvpNode}

theorem unionTurn_unnamed (noName : (h.entry src).name = none) (h₂ : NvpHeap) :
    UnionTurn dst allowed src h h₂ ↔ h₂ = h := by
  constructor
  · intro turn
    cases turn with
    | unnamed noName => rfl
    | duplicate named => exact absurd noName named
    | overwritten named => exact absurd noName named
    | inserted named => exact absurd noName named
  · rintro rfl
    exact .unnamed noName

/-- A turn for an entry that is found among the allowed duplicates. -/
theorem unionTurn_listed (named : (h.entry src).name ≠ none) {ad : ℕ}
    (search : ∀ r, Search h.next (h.sameName src) (h.next allowed) r ↔ r = some ad) (h₂ : NvpHeap) :
    UnionTurn dst allowed src h h₂ ↔ ∃ prev,
      Walk (fun _ => h.next) (fun a _ prev => prev = a) (h.next dst) dst prev ∧
        h₂ = h.insert prev (h.entry src) := by
  constructor
  · intro turn
    cases turn with
    | unnamed noName => exact absurd noName named
    | duplicate _ _ atEnd => exact ⟨_, atEnd, rfl⟩
    | overwritten _ unlisted => exact absurd ((search _).mp unlisted).symm (Option.some_ne_none _)
    | inserted _ unlisted => exact absurd ((search _).mp unlisted).symm (Option.some_ne_none _)
  · rintro ⟨prev, atEnd, rfl⟩
    exact .duplicate named ((search _).mpr rfl) atEnd

/-- A turn for any other entry goes by what the loop over the destination finds. -/
theorem unionTurn_unlisted (named : (h.entry src).name ≠ none)
    (search : ∀ r, Search h.next (h.sameName src) (h.next allowed) r ↔ r = none) (h₂ : NvpHeap) :
    UnionTurn dst allowed src h h₂ ↔ ∃ s,
      Walk (fun s => s.heap.next) (fun a s s' => s' = overwriteTurn src s a) (h.next dst)
        ⟨h, dst, false⟩ s ∧
          h₂ = if s.foundMatch then s.heap else s.heap.insert s.prev (s.heap.entry src) := by
  constructor
  · intro turn
    cases turn with
    | unnamed noName => exact absurd noName named
    | duplicate _ listed => exact absurd ((search _).mp listed) (Option.some_ne_none _)
    | @overwritten s _ _ walk found => exact ⟨s, walk, by rw [if_pos found]⟩
    | @inserted s _ _ walk missing => exact ⟨s, walk, by rw [missing, if_neg Bool.false_ne_true]⟩
  · rintro ⟨s, walk, rfl⟩
    by_cases found : s.foundMatch = true
    · rw [if_pos found]
      exact .overwritten named ((search _).mpr rfl) walk found
    · rw [if_neg found]
      exact .inserted named ((search _).mpr rfl) walk (Bool.eq_false_iff.mpr found)

/-- **One turn of the union.**  It has one result, in which the destination is changed as `unionNode`
says. -/
theorem unionTurn_spec (dstHolds : h.Holds dst ds es) (allowedHolds : h.Holds allowed ads aes)
    (apart : src ∉ ds) : ∃ h₁, (∀ h₂, UnionTurn dst allowed src h h₂ ↔ h₂ = h₁) ∧
      ∃ ds', h₁.Holds dst ds' (unionNode (aes.map NvpNode.name) es (h.entry src)) ∧
        Grows h h₁ dst ds ds' := by
  by_cases named : (h.entry src).name = none
  · refine ⟨h, unionTurn_unnamed named, ds, ?_, Grows.refl h dst ds⟩
    rw [unionNode, if_pos named]
    exact dstHolds
  have search := search_allowed src allowedHolds
  rcases listed : ads.find? (h.sameName src) with _ | ad
  · rw [listed] at search
    have unlisted := (find_allowed allowedHolds named).mp listed
    obtain ⟨s, walks, final⟩ := walk_overwrite dstHolds rfl named apart
    have turns : ∀ h₂, UnionTurn dst allowed src h h₂ ↔
        h₂ = if s.foundMatch then s.heap else s.heap.insert s.prev (s.heap.entry src) := by
      intro h₂
      rw [unionTurn_unlisted named search]
      constructor
      · rintro ⟨s', walk, result⟩
        rwa [(walks s').mp walk] at result
      · exact fun result => ⟨s, (walks s).mpr rfl, result⟩
    refine ⟨_, turns, ?_⟩
    have known : s.foundMatch = true ↔ (h.entry src).name ∈ es.map NvpNode.name := by
      rw [final.foundMatch, decide_eq_true_iff, ← dstHolds.entries, List.map_map]
      rfl
    by_cases found : s.foundMatch = true
    · refine ⟨ds, ?_, ?_⟩
      · rw [if_pos found, unionNode, if_neg named, if_neg unlisted, if_pos (known.mp found)]
        exact final.holds dstHolds
      · rw [if_pos found]
        exact final.grows
    · have same : ∀ a ∈ ds, s.heap.entry a = h.entry a := by
        intro a among
        rw [final.visited a among, overwriteValue, if_neg]
        intro isName
        refine found (known.mpr ?_)
        rw [← dstHolds.entries, List.map_map]
        exact List.mem_map.mpr ⟨a, among, isName⟩
      have unchanged : s.heap.Holds dst ds es :=
        dstHolds.congr (fun a _ => congrFun final.next a) same final.top.ge
      have longer := unchanged.insert (h.entry src)
      have grows := final.grows.trans (grows_insert s.heap dst ds (h.entry src))
      rw [if_neg found, final.prev, final.others src apart]
      refine ⟨_, ?_, grows⟩
      rw [unionNode, if_neg named, if_neg unlisted, if_neg fun old => found (known.mpr old)]
      exact longer
  · rw [listed] at search
    have among : (h.entry src).name ∈ aes.map NvpNode.name := by
      by_contra unlisted
      rw [(find_allowed allowedHolds named).mpr unlisted] at listed
      cases listed
    have turns : ∀ h₂, UnionTurn dst allowed src h h₂ ↔
        h₂ = h.insert (lastNode dst ds) (h.entry src) := by
      intro h₂
      rw [unionTurn_listed named search]
      simp only [walk_end dstHolds, exists_eq_left]
    refine ⟨_, turns, _, ?_, grows_insert h dst ds (h.entry src)⟩
    rw [unionNode, if_neg named, if_pos among]
    exact dstHolds.insert (h.entry src)

end

/-! ## The whole run -/

/-- Three lists in memory, with the destination apart from the other two. -/
structure UnionStart (h : NvpHeap) (dst src allowed : ℕ) (ds ss ads : List ℕ)
    (es ses aes : List NvpNode) : Prop where
  dstHolds : h.Holds dst ds es
  srcHolds : h.Holds src ss ses
  allowedHolds : h.Holds allowed ads aes
  srcApart : ∀ a ∈ src :: ss, a ∉ dst :: ds
  allowedApart : ∀ a ∈ allowed :: ads, a ∉ dst :: ds

section

variable {h : NvpHeap} {dst src allowed : ℕ} {ds ss ads : List ℕ} {es ses aes : List NvpNode}

/-- A list apart from the destination stays as it is. -/
theorem Grows.holds {h' : NvpHeap} {ds' : List ℕ} (grows : Grows h h' dst ds ds') {head : ℕ}
    {as : List ℕ} {l : List NvpNode} (holds : h.Holds head as l)
    (apart : ∀ a ∈ head :: as, a ∉ dst :: ds) : h'.Holds head as l :=
  holds.congr (fun a among => (grows.kept a (holds.inUse a among) (apart a among)).1)
    (fun a among =>
      (grows.kept a (holds.inUse a (List.mem_cons_of_mem head among))
        (apart a (List.mem_cons_of_mem head among))).2) grows.top

/-- The run of the union: it has one result. -/
theorem nvpListUnion_run (start : UnionStart h dst src allowed ds ss ads es ses aes) :
    ∃ h', (∀ h'', NvpListUnion dst src allowed h h'' ↔ h'' = h') ∧
      ∃ ds', h'.Holds dst ds' (ses.foldl (unionNode (aes.map NvpNode.name)) es) ∧
        Grows h h' dst ds ds' := by
  have whole : ∃ h', (∀ h'', Walk NvpHeap.next (UnionTurn dst allowed) ss.head? h h'' ↔ h'' = h') ∧
      ∃ front ds', ss = front ++ [] ∧
        h'.Holds dst ds' ((front.map h.entry).foldl (unionNode (aes.map NvpNode.name)) es) ∧
        Grows h h' dst ds ds' := by
    refine Walk.exists_unique (fun l h' => ∃ front ds', ss = front ++ l ∧
      h'.Holds dst ds' ((front.map h.entry).foldl (unionNode (aes.map NvpNode.name)) es) ∧
      Grows h h' dst ds ds') ?_ ⟨[], ds, rfl, start.dstHolds, Grows.refl h dst ds⟩
    rintro a l h₁ ⟨front, ds₁, all, holds, grows⟩
    have among : a ∈ src :: ss := by
      rw [all]
      exact List.mem_cons_of_mem src (List.mem_append_right front List.mem_cons_self)
    have inUse := start.srcHolds.inUse a among
    have kept := grows.kept a inUse (start.srcApart a among)
    have apart : a ∉ ds₁ := by
      intro inDst
      rcases grows.nodes a inDst with old | new
      · exact start.srcApart a among (List.mem_cons_of_mem dst old)
      · omega
    obtain ⟨h₂, only, ds₂, holds₂, grows₂⟩ :=
      unionTurn_spec holds (grows.holds start.allowedHolds start.allowedApart) apart
    have grown := grows.trans grows₂
    refine ⟨h₂, only, ?_, front ++ [a], ds₂, by simp [all], ?_, grown⟩
    · have ahead : h.next a = l.head? := by
        have srcHolds := start.srcHolds
        rw [all] at srcHolds
        exact srcHolds.ahead
      rw [(grown.kept a inUse (start.srcApart a among)).1, ahead]
    · rw [List.map_append, List.foldl_append, List.map_singleton, List.foldl_cons, List.foldl_nil,
        ← kept.2]
      exact holds₂
  obtain ⟨h', walks, front, ds', all, holds, grows⟩ := whole
  rw [List.append_nil] at all
  rw [← all, start.srcHolds.entries] at holds
  refine ⟨h', fun h'' => ?_, ds', holds, grows⟩
  rw [NvpListUnion, start.srcHolds.chain.2.head]
  exact walks h''

end

/-! ## Entries with names -/

theorem overwrite_node (src e : NameValPair) : overwriteValue src.node e.node =
    (if e.name = src.name then { e with value := some (printed src.value) } else e).node := by
  have names : e.node.name = src.node.name ↔ e.name = src.name := Option.some_inj
  unfold overwriteValue
  by_cases same : e.name = src.name
  · rw [if_pos same, if_pos (names.mpr same)]
    rfl
  · rw [if_neg same, if_neg fun same' => same (names.mp same')]

theorem mem_names_node {x : CStr} {l : List NameValPair} :
    some x ∈ (l.map NameValPair.node).map NvpNode.name ↔ x ∈ l.map NameValPair.name := by
  simp only [List.mem_map, exists_exists_and_eq_and, NameValPair.node, Option.some.injEq]

theorem unionNode_node (allowed : List CStr) (dst : List NameValPair) (src : NameValPair) :
    unionNode (allowed.map some) (dst.map NameValPair.node) src.node =
      (unionEntry allowed dst src).map NameValPair.node := by
  have listed : src.node.name ∈ allowed.map some ↔ src.name ∈ allowed := by
    simp only [NameValPair.node, List.mem_map, Option.some.injEq, exists_eq_right]
  have old : src.node.name ∈ (dst.map NameValPair.node).map NvpNode.name ↔
      src.name ∈ dst.map NameValPair.name := mem_names_node
  have appended : dst.map NameValPair.node ++ [src.node.copy] =
      (dst ++ [copyNvPair src]).map NameValPair.node := by
    rw [List.map_append]
    rfl
  have named : src.node.name ≠ none := Option.some_ne_none _
  unfold unionNode unionEntry
  rw [if_neg named]
  by_cases duplicate : src.name ∈ allowed
  · rw [if_pos duplicate, if_pos (listed.mpr duplicate), appended]
  · rw [if_neg duplicate, if_neg fun listed' => duplicate (listed.mp listed')]
    by_cases found : src.name ∈ dst.map NameValPair.name
    · rw [if_pos found, if_pos (old.mpr found), List.map_map, List.map_map]
      exact List.map_congr_left fun e _ => overwrite_node src e
    · rw [if_neg found, if_neg fun old' => found (old.mp old'), appended]

theorem foldl_unionNode (allowed : List CStr) (dst src : List NameValPair) :
    (src.map NameValPair.node).foldl (unionNode (allowed.map some)) (dst.map NameValPair.node) =
      (nvpListUnion dst src allowed).map NameValPair.node := by
  induction src generalizing dst with
  | nil => rfl
  | cons e src ih =>
    rw [List.map_cons, List.foldl_cons, unionNode_node, ih]
    rfl

theorem names_node (l : List NameValPair) :
    (l.map NameValPair.node).map NvpNode.name = (l.map NameValPair.name).map some := by
  rw [List.map_map, List.map_map]
  rfl

/-- A run on lists whose entries have names, as the parsers build them, ends in `nvpListUnion`. -/
theorem nvpListUnion_named {h : NvpHeap} {dst src allowed : ℕ} {ds ss ads : List ℕ}
    {dsts srcs dups : List NameValPair}
    (start : UnionStart h dst src allowed ds ss ads (dsts.map NameValPair.node)
      (srcs.map NameValPair.node) (dups.map NameValPair.node)) :
    ∃ h', (∀ h'', NvpListUnion dst src allowed h h'' ↔ h'' = h') ∧ ∃ ds', h'.Holds dst ds'
      ((nvpListUnion dsts srcs (dups.map NameValPair.name)).map NameValPair.node) := by
  obtain ⟨h', only, ds', holds, -⟩ := nvpListUnion_run start
  rw [names_node, foldl_unionNode] at holds
  exact ⟨h', only, ds', holds⟩

/-! ## What the union holds -/

/-- What the lists hold afterwards: the entries of the source are taken in order. -/
def unionNodes (allowed : List (Option CStr)) (dst src : List NvpNode) : List NvpNode :=
  src.foldl (unionNode allowed) dst

section

variable {allowed : List (Option CStr)} {dst src : List NvpNode} {e : NvpNode} {x : Option CStr}

/-- The entries of a list with the name `x`. -/
def named (x : Option CStr) (l : List NvpNode) : List NvpNode := l.filter fun e => e.name = x

theorem named_append (x : Option CStr) (l l' : List NvpNode) :
    named x (l ++ l') = named x l ++ named x l' := List.filter_append l l'

theorem named_singleton (x : Option CStr) (e : NvpNode) :
    named x [e] = if e.name = x then [e] else [] := by
  by_cases isName : e.name = x
  · rw [named, List.filter_cons_of_pos (by simpa using isName), if_pos isName, List.filter_nil]
  · rw [named, List.filter_cons_of_neg (by simpa using isName), if_neg isName, List.filter_nil]

theorem NvpNode.copy_name (given : e.name ≠ none) : e.copy.name = e.name := by
  obtain ⟨name, isName⟩ := Option.ne_none_iff_exists'.mp given
  rw [NvpNode.copy, isName]
  rfl

theorem unionNodes_concat (allowed : List (Option CStr)) (dst src : List NvpNode) (e : NvpNode) :
    unionNodes allowed dst (src ++ [e]) = unionNode allowed (unionNodes allowed dst src) e :=
  List.foldl_concat ..

theorem unionNodes_append (allowed : List (Option CStr)) (dst s₁ s₂ : List NvpNode) :
    unionNodes allowed dst (s₁ ++ s₂) = unionNodes allowed (unionNodes allowed dst s₁) s₂ :=
  List.foldl_append ..

theorem overwriteValue_name (src e : NvpNode) : (overwriteValue src e).name = e.name := by
  unfold overwriteValue
  split_ifs
  · rfl
  · rfl

/-- An entry does not touch the entries with other names. -/
theorem named_unionNode_of_ne (other : e.name ≠ x) :
    named x (unionNode allowed dst e) = named x dst := by
  unfold unionNode
  split_ifs with noName duplicate found
  · rfl
  · rw [named_append, named_singleton, NvpNode.copy_name noName, if_neg other, List.append_nil]
  · rw [named, List.filter_map]
    have same : (fun d : NvpNode => decide (d.name = x)) ∘ overwriteValue e =
        fun d => decide (d.name = x) := by
      funext d
      rw [Function.comp_apply, overwriteValue_name]
    rw [same]
    refine (List.map_congr_left fun d among => if_neg ?_).trans (List.map_id _)
    rintro isName
    exact other (isName.symm.trans (by simpa using (List.mem_filter.mp among).2))
  · rw [named_append, named_singleton, NvpNode.copy_name noName, if_neg other, List.append_nil]

/-- A run without the name `x` does not touch the entries with it. -/
theorem named_unionNodes_of_notMem (absent : x ∉ src.map NvpNode.name) :
    named x (unionNodes allowed dst src) = named x dst := by
  induction src using List.reverseRecOn with
  | nil => rfl
  | append_singleton src e ih =>
    rw [List.map_append, List.mem_append, not_or, List.map_singleton, List.mem_singleton] at absent
    rw [unionNodes_concat, named_unionNode_of_ne (Ne.symm absent.2), ih absent.1]

/-- Every entry with an allowed name is kept, those of the source behind those of the destination. -/
theorem named_unionNodes_of_allowed (given : x ≠ none) (duplicate : x ∈ allowed) :
    named x (unionNodes allowed dst src) = named x dst ++ (named x src).map NvpNode.copy := by
  induction src using List.reverseRecOn with
  | nil => exact (List.append_nil _).symm
  | append_singleton src e ih =>
    rw [unionNodes_concat]
    by_cases isName : e.name = x
    · have named' : e.name ≠ none := isName ▸ given
      rw [unionNode, if_neg named', if_pos (isName ▸ duplicate), named_append, ih, named_append,
        named_singleton, NvpNode.copy_name named', if_pos isName, named_singleton, if_pos isName,
        List.map_append, List.append_assoc]
      rfl
    · rw [named_unionNode_of_ne isName, ih, named_append, named_singleton, if_neg isName,
        List.append_nil]

/-- After an entry whose name is not allowed twice, all entries with the name have its value. -/
theorem value_unionNode (given : e.name ≠ none) (once : e.name ∉ allowed) {r : NvpNode}
    (among : r ∈ named e.name (unionNode allowed dst e)) : r.value = some (printed e.value) := by
  obtain ⟨among, isName⟩ := List.mem_filter.mp among
  unfold unionNode at among
  rw [if_neg given, if_neg once] at among
  split_ifs at among with found
  · obtain ⟨d, -, rfl⟩ := List.mem_map.mp among
    have same : d.name = e.name := by
      rw [← overwriteValue_name e d]
      simpa using isName
    rw [overwriteValue, if_pos same]
  · rcases List.mem_append.mp among with old | new
    · exact absurd (List.mem_map.mpr ⟨r, old, by simpa using isName⟩) found
    · rw [List.mem_singleton.mp new]
      rfl

theorem named_ne_nil {l : List NvpNode} : named x l ≠ [] ↔ x ∈ l.map NvpNode.name := by
  simp [named, List.mem_map]

/-- The name of an entry is there afterwards. -/
theorem name_mem_unionNode (allowed : List (Option CStr)) (dst : List NvpNode)
    (given : e.name ≠ none) : e.name ∈ (unionNode allowed dst e).map NvpNode.name := by
  have appended : e.name ∈ (dst ++ [e.copy]).map NvpNode.name := by
    rw [List.map_append, List.mem_append, List.map_singleton, NvpNode.copy_name given]
    exact .inr List.mem_cons_self
  unfold unionNode
  rw [if_neg given]
  split_ifs with duplicate found
  · exact appended
  · obtain ⟨d, among, isName⟩ := List.mem_map.mp found
    refine List.mem_map.mpr ⟨_, List.mem_map.mpr ⟨d, among, rfl⟩, ?_⟩
    exact (overwriteValue_name e d).trans isName
  · exact appended

/-- An entry of the destination and what has become of it; entries that the source does not replace
are as they were. -/
def Kept (allowed : List (Option CStr)) (src : List NvpNode) (d r : NvpNode) : Prop :=
  r.name = d.name ∧ r.processed = d.processed ∧
    (d.name = none ∨ d.name ∉ src.map NvpNode.name ∨ d.name ∈ allowed → r = d)

theorem Kept.refl (allowed : List (Option CStr)) (d : NvpNode) : Kept allowed [] d d :=
  ⟨rfl, rfl, fun _ => rfl⟩

theorem Kept.append {d r : NvpNode} (kept : Kept allowed src d r) (e : NvpNode) :
    Kept allowed (src ++ [e]) d r := by
  refine ⟨kept.1, kept.2.1, fun other => kept.2.2 (other.imp_right (.imp_left fun absent => ?_))⟩
  rw [List.map_append, List.mem_append, not_or] at absent
  exact absent.1

/-- An entry whose name the source gives no second time is overwritten. -/
theorem Kept.overwrite {d r : NvpNode} (kept : Kept allowed src d r) (given : e.name ≠ none)
    (once : e.name ∉ allowed) : Kept allowed (src ++ [e]) d (overwriteValue e r) := by
  by_cases isName : r.name = e.name
  · rw [overwriteValue, if_pos isName]
    have same : d.name = e.name := kept.1.symm.trans isName
    refine ⟨kept.1, kept.2.1, ?_⟩
    rintro (noName | absent | duplicate)
    · exact absurd (same.symm.trans noName) given
    · rw [List.map_append, List.mem_append, not_or, List.map_singleton, List.mem_singleton] at absent
      exact absurd same absent.2
    · rw [same] at duplicate
      exact absurd duplicate once
  · rw [overwriteValue, if_neg isName]
    exact kept.append e

/-- The destination is the front of the result, and everything behind it has a name of the source. -/
theorem unionNodes_front (allowed : List (Option CStr)) (dst src : List NvpNode) :
    ∃ front back, unionNodes allowed dst src = front ++ back ∧
      List.Forall₂ (Kept allowed src) dst front ∧
      ∀ r ∈ back, r.name ≠ none ∧ r.name ∈ src.map NvpNode.name := by
  induction src using List.reverseRecOn with
  | nil =>
    refine ⟨dst, [], (List.append_nil dst).symm, ?_, fun r among => absurd among List.not_mem_nil⟩
    exact List.forall₂_same.mpr fun d _ => Kept.refl allowed d
  | append_singleton src e ih =>
    obtain ⟨front, back, split, kept, names⟩ := ih
    rw [unionNodes_concat, split, List.map_append, List.map_singleton]
    have kept' : List.Forall₂ (Kept allowed (src ++ [e])) dst front := kept.imp fun _ _ h => h.append e
    have names' : ∀ r ∈ back, r.name ≠ none ∧ r.name ∈ src.map NvpNode.name ++ [e.name] :=
      fun r among => ⟨(names r among).1, List.mem_append_left _ (names r among).2⟩
    have appended (given : e.name ≠ none) : ∃ front' back', front ++ back ++ [e.copy] = front' ++ back' ∧
        List.Forall₂ (Kept allowed (src ++ [e])) dst front' ∧
        ∀ r ∈ back', r.name ≠ none ∧ r.name ∈ src.map NvpNode.name ++ [e.name] := by
      refine ⟨front, back ++ [e.copy], List.append_assoc .., kept', ?_⟩
      intro r among
      rcases List.mem_append.mp among with old | new
      · exact names' r old
      · rw [List.mem_singleton.mp new, NvpNode.copy_name given]
        exact ⟨given, List.mem_append_right _ List.mem_cons_self⟩
    unfold unionNode
    split_ifs with noName duplicate found
    · exact ⟨front, back, rfl, kept', names'⟩
    · exact appended noName
    · refine ⟨_, _, List.map_append, ?_, ?_⟩
      · exact List.forall₂_map_right_iff.mpr (kept.imp fun _ _ h => h.overwrite noName duplicate)
      · intro r among
        obtain ⟨b, inBack, rfl⟩ := List.mem_map.mp among
        rw [overwriteValue_name]
        exact names' b inBack
    · exact appended noName

end

/-- **The union of two lists.**  The run has one result.  In it the source and the allowed duplicates
are as before and the destination is the fold over the source.  A name that is not allowed twice has
the value of its last entry in the source everywhere, the entries of the destination that the source
does not replace are kept in front, and for an allowed name none is lost and none merged.  An entry
without a name is passed over in the source and kept in the destination; among the allowed duplicates
`strcmp` would be given a null pointer. -/
theorem nvpListUnion_spec {h : NvpHeap} {dst src allowed : ℕ} {ds ss ads : List ℕ}
    {dsts srcs : List NvpNode} {dups : List NameValPair}
    (start : UnionStart h dst src allowed ds ss ads dsts srcs (dups.map NameValPair.node)) :
    let names := (dups.map NameValPair.name).map some
    let union := unionNodes names dsts srcs
    (∃ h', (∀ h'', NvpListUnion dst src allowed h h'' ↔ h'' = h') ∧
      (∃ ds', h'.Holds dst ds' union) ∧ h'.Holds src ss srcs ∧
      h'.Holds allowed ads (dups.map NameValPair.node)) ∧
    (∀ s₁ e s₂, srcs = s₁ ++ e :: s₂ → e.name ≠ none → e.name ∉ names → e.name ∉ s₂.map NvpNode.name →
      e.name ∈ union.map NvpNode.name ∧
      ∀ r ∈ union, r.name = e.name → r.value = some (printed e.value)) ∧
    (∃ front back, union = front ++ back ∧ List.Forall₂ (Kept names srcs) dsts front ∧
      ∀ r ∈ back, r.name ≠ none ∧ r.name ∈ srcs.map NvpNode.name) ∧
    ∀ x ∈ names, named x union = named x dsts ++ (named x srcs).map NvpNode.copy := by
  intro names union
  refine ⟨?_, ?_, unionNodes_front names dsts srcs, ?_⟩
  · obtain ⟨h', only, ds', holds, grows⟩ := nvpListUnion_run start
    rw [names_node] at holds
    exact ⟨h', only, ⟨ds', holds⟩, grows.holds start.srcHolds start.srcApart,
      grows.holds start.allowedHolds start.allowedApart⟩
  · rintro s₁ e s₂ rfl given once last
    have same : named e.name union =
        named e.name (unionNode names (unionNodes names dsts s₁) e) := by
      show named e.name (unionNodes names dsts (s₁ ++ e :: s₂)) = _
      rw [List.append_cons, unionNodes_append, named_unionNodes_of_notMem last, unionNodes_concat]
    refine ⟨?_, fun r among isName => ?_⟩
    · rw [← named_ne_nil, same, named_ne_nil]
      exact name_mem_unionNode names _ given
    · have found : r ∈ named e.name union := List.mem_filter.mpr ⟨among, by simpa using isName⟩
      rw [same] at found
      exact value_unionNode given once found
  · intro x duplicate
    obtain ⟨name, -, rfl⟩ := List.mem_map.mp duplicate
    exact named_unionNodes_of_allowed (Option.some_ne_none name) duplicate

/-- Three lists with their heads at 0, 1 and 2.  The second entry of the source has no name. -/
def sampleLists : NvpHeap where
  entry a := [⟨none, none, false⟩, ⟨none, none, false⟩, ⟨none, none, false⟩,
    ⟨some (lit "key"), some (lit "openssl"), false⟩, ⟨some (lit "sig"), some (lit "a"), false⟩,
    ⟨some (lit "key"), none, false⟩, ⟨some (lit "sig"), some (lit "b"), false⟩,
    ⟨some (lit "sig"), none, false⟩, ⟨none, some (lit "c"), false⟩].getD a ⟨none, none, false⟩
  next a := [some 3, some 5, some 7, some 4, none, some 8, none, none, some 6].getD a none
  top := 9

theorem unionStart_sample : UnionStart sampleLists 0 1 2 [3, 4] [5, 8, 6] [7]
    [⟨some (lit "key"), some (lit "openssl"), false⟩, ⟨some (lit "sig"), some (lit "a"), false⟩]
    [⟨some (lit "key"), none, false⟩, ⟨none, some (lit "c"), false⟩,
      ⟨some (lit "sig"), some (lit "b"), false⟩]
    ([⟨lit "sig", none, false⟩].map NameValPair.node) where
  dstHolds := ⟨⟨rfl, rfl, rfl, rfl⟩, rfl, by decide⟩
  srcHolds := ⟨⟨rfl, rfl, rfl, rfl, rfl⟩, rfl, by decide⟩
  allowedHolds := ⟨⟨rfl, rfl, rfl⟩, rfl, by decide⟩
  srcApart := by decide
  allowedApart := by decide

theorem nvpListUnion_spec_sample : ∃ h' ds', NvpListUnion 0 1 2 sampleLists h' ∧
    h'.Holds 0 ds' [⟨some (lit "key"), some (lit "(null)"), false⟩,
      ⟨some (lit "sig"), some (lit "a"), false⟩, ⟨some (lit "sig"), some (lit "b"), false⟩] := by
  obtain ⟨⟨h', only, ⟨ds', holds⟩, -, -⟩, -, -, -⟩ := nvpListUnion_spec unionStart_sample
  exact ⟨h', ds', (only h').mpr rfl, holds⟩

end Ecryptfs
