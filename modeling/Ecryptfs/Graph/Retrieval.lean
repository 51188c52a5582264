import Ecryptfs.Graph.Invariant

/-!
# Which entries are taken

Each call of `retrieve_val` is recorded with its result and with what it takes: an entry of the list, by the
number of its option among those of the node and its place in the list, or the default (`source`).  A run of
`eval_param_tree` takes no entry twice, the entries of a name in their order, for a node the first one
of its last option that has one, and a default only if there is none; and the node gets the value of what is
taken (`takesInOrder_of_evaluates`).
The flags in the list are all that this rests on: what the transition functions do to the values of the
list makes no difference.
-/

namespace Ecryptfs

/-- Where `retrieve_val` finds a value: option number `name` of the node and entry number `index` of
the list, or the default. -/
inductive Source where
  | entry (name index : ℕ)
  | default
  | nothing
  deriving DecidableEq

/-- A call of `retrieve_val`: the node and the list, where it finds a value, and what it returns. -/
structure Retrieval (ν κ : Type) where
  node : ParamNode ν κ
  nvps : List NameValPair
  source : Source
  result : Bool × ParamNode ν κ × List NameValPair

/-- The place of the first entry of the given name that is not processed. -/
def firstFree (name : CStr) (nvps : List NameValPair) : Option ℕ :=
  nvps.findIdx? fun e => e.name = name ∧ e.processed = false

/-- The loop of `retrieve_val` over the options with a number below the given one. -/
def sourceBelow (names : List CStr) (nvps : List NameValPair) : ℕ → Option (ℕ × ℕ)
  | 0 => none
  | a + 1 =>
    match (names[a]?).bind fun name => firstFree name nvps with
    | some i => some (a, i)
    | none => sourceBelow names nvps a

/-- The list with entry number `i` marked as processed. -/
def process (i : ℕ) (nvps : List NameValPair) : List NameValPair :=
  nvps.modify i fun e => { e with processed := true }

section

variable {ν κ ω : Type}

/-- Where `retrieve_val` finds a value for a node. -/
def source (node : ParamNode ν κ) (nvps : List NameValPair) : Source :=
  match sourceBelow node.mntOptNames nvps node.mntOptNames.length with
  | some (a, i) => .entry a i
  | none =>
    match node.defaultVal with
    | some d => if d ≠ lit "NULL" then .default else .nothing
    | none => .nothing

/-- The record of a call of `retrieve_val`. -/
def retrieval (node : ParamNode ν κ) (nvps : List NameValPair) : Retrieval ν κ :=
  ⟨node, nvps, source node nvps, retrieveVal node nvps⟩

/-! ## One call -/

theorem takeEntry_eq (name : CStr) (nvps : List NameValPair) :
    takeEntry name nvps =
      (firstFree name nvps).map fun i => ((nvps[i]?).bind NameValPair.value, process i nvps) := by
  induction nvps with
  | nil => rfl
  | cons e es ih =>
    unfold takeEntry firstFree
    rw [List.findIdx?_cons]
    by_cases free : e.name = name ∧ e.processed = false
    · rw [if_pos free, if_pos (by simpa using free)]
      rfl
    · rw [if_neg free, if_neg (by simpa using free), ih, firstFree, Option.map_map, Option.map_map]
      rfl

/-- The options are tried from the last one on. -/
theorem findSome?_reverse (names : List CStr) (nvps : List NameValPair) :
    (names.reverse.findSome? fun name => takeEntry name nvps) =
      (sourceBelow names nvps names.length).map fun (_, i) =>
        ((nvps[i]?).bind NameValPair.value, process i nvps) := by
  have below : ∀ (names more : List CStr) (a : ℕ), a ≤ names.length →
      sourceBelow (names ++ more) nvps a = sourceBelow names nvps a := by
    intro names more a le
    induction a with
    | zero => rfl
    | succ a ih =>
      unfold sourceBelow
      rw [List.getElem?_append_left (by omega), ih (by omega)]
  induction names using List.reverseRecOn with
  | nil => rfl
  | append_singleton names name ih =>
    rw [List.reverse_append, List.reverse_singleton, List.singleton_append, List.findSome?_cons, ih,
      takeEntry_eq, List.length_append, List.length_singleton]
    conv_rhs => unfold sourceBelow
    rw [List.getElem?_concat_length, Option.bind_some, below names [name] names.length le_rfl]
    rcases firstFree name nvps with _ | i
    · rfl
    · rfl

/-- What `retrieve_val` makes of what it finds. -/
theorem retrieveVal_source (node : ParamNode ν κ) (nvps : List NameValPair) :
    retrieveVal node nvps =
      match source node nvps with
      | .entry _ i => (true, node.receive ((nvps[i]?).bind NameValPair.value), process i nvps)
      | .default => (true, { node with val := node.defaultVal }, nvps)
      | .nothing => (false, node, nvps) := by
  unfold retrieveVal source
  rw [findSome?_reverse]
  rcases sourceBelow node.mntOptNames nvps node.mntOptNames.length with _ | ⟨a, i⟩
  · rcases isDefault : node.defaultVal with _ | d
    · rfl
    · dsimp only [Option.map_none]
      split_ifs
      · rfl
      · rfl
  · rfl

/-- Entry number `i` has the given name and is not processed. -/
def FreeAt (nvps : List NameValPair) (name : CStr) (i : ℕ) : Prop :=
  ∃ e ∈ nvps[i]?, e.name = name ∧ e.processed = false

theorem firstFree_eq_none {name : CStr} {nvps : List NameValPair}
    (none_ : firstFree name nvps = none) (i : ℕ) : ¬ FreeAt nvps name i := by
  rintro ⟨e, there, free⟩
  have unfound := List.findIdx?_eq_none_iff.mp none_ e (List.mem_of_getElem? there)
  exact absurd (decide_eq_true free) (by simp [unfound])

theorem firstFree_eq_some {name : CStr} {nvps : List NameValPair} {i : ℕ}
    (found : firstFree name nvps = some i) : FreeAt nvps name i ∧ ∀ i' < i, ¬ FreeAt nvps name i' := by
  obtain ⟨bound, free, first⟩ := List.findIdx?_eq_some_iff_getElem.mp found
  refine ⟨⟨nvps[i], List.getElem?_eq_getElem bound, of_decide_eq_true free⟩, ?_⟩
  rintro i' less ⟨e, there, free'⟩
  obtain ⟨bound', rfl⟩ := List.getElem?_eq_some_iff.mp there
  exact first i' less (decide_eq_true free')

/-- What the record of a call says about the list. -/
structure TakesFirst (r : Retrieval ν κ) : Prop where
  entry : ∀ a i, r.source = .entry a i → (∃ name ∈ r.node.mntOptNames[a]?, FreeAt r.nvps name i ∧
    ∀ i' < i, ¬ FreeAt r.nvps name i') ∧
      ∀ a' > a, ∀ name ∈ r.node.mntOptNames[a']?, ∀ i', ¬ FreeAt r.nvps name i'
  noEntry : (∀ a i, r.source ≠ .entry a i) → ∀ name ∈ r.node.mntOptNames, ∀ i, ¬ FreeAt r.nvps name i

/-- What the value of an entry makes of a node: a null pointer and the text `(null)` only mark it. -/
structure ParamNode.Gets (node : ParamNode ν κ) (value : Option CStr) (node' : ParamNode ν κ) : Prop where
  real : ∀ v, value = some v → v ≠ nullText → node' = { node with val := some v }
  null : value = none ∨ value = some nullText →
    node' = { node with flags := { node.flags with parameterSet := true } }

/-- A call returns what it takes: the value of an entry, which is marked in the list, the default of the node, or
nothing, if the node has no default. -/
structure Retrieval.Gives (r : Retrieval ν κ) : Prop where
  entry : ∀ a i, r.source = .entry a i → ∃ e ∈ r.nvps[i]?, ∃ node', r.node.Gets e.value node' ∧
    r.result = (true, node', process i r.nvps)
  default : r.source = .default → ∃ d, r.node.defaultVal = some d ∧ d ≠ lit "NULL" ∧
    r.result = (true, { r.node with val := some d }, r.nvps)
  nothing : r.source = .nothing → (∀ d, r.node.defaultVal = some d → d = lit "NULL") ∧
    r.result = (false, r.node, r.nvps)

theorem ParamNode.gets_receive (node : ParamNode ν κ) (value : Option CStr) :
    node.Gets value (node.receive value) := by
  constructor
  · rintro v rfl real
    exact receive_real real
  · rintro (rfl | rfl)
    · rfl
    · have dropped : realValue (some nullText) = none := by simp [realValue, Option.filter_some]
      rw [ParamNode.receive, dropped]

theorem sourceBelow_eq_none {names : List CStr} {nvps : List NameValPair} {k : ℕ}
    (none_ : sourceBelow names nvps k = none) :
    ∀ a < k, ∀ name ∈ names[a]?, ∀ i, ¬ FreeAt nvps name i := by
  induction k with
  | zero => exact fun a less => absurd less (Nat.not_lt_zero a)
  | succ k ih =>
    intro a less name there
    unfold sourceBelow at none_
    split at none_
    · cases none_
    · next last =>
      rcases Nat.lt_succ_iff_lt_or_eq.mp less with less | rfl
      · exact ih none_ a less name there
      · rw [show names[a]? = some name from there, Option.bind_some] at last
        exact firstFree_eq_none last

theorem sourceBelow_eq_some {names : List CStr} {nvps : List NameValPair} {k a i : ℕ}
    (found : sourceBelow names nvps k = some (a, i)) :
    (∃ name ∈ names[a]?, FreeAt nvps name i ∧ ∀ i' < i, ¬ FreeAt nvps name i') ∧
      ∀ a' > a, a' < k → ∀ name ∈ names[a']?, ∀ i', ¬ FreeAt nvps name i' := by
  induction k with
  | zero => cases found
  | succ k ih =>
    unfold sourceBelow at found
    split at found
    · next i' last =>
      obtain ⟨rfl, rfl⟩ := Prod.mk.inj (Option.some.inj found)
      obtain ⟨name, there, first⟩ := Option.bind_eq_some_iff.mp last
      exact ⟨⟨name, there, firstFree_eq_some first⟩, fun a' more less => by omega⟩
    · next last =>
      obtain ⟨here, above⟩ := ih found
      refine ⟨here, fun a' more less name there => ?_⟩
      rcases Nat.lt_succ_iff_lt_or_eq.mp less with less | rfl
      · exact above a' more less name there
      · rw [show names[a']? = some name from there, Option.bind_some] at last
        exact firstFree_eq_none last

theorem takesFirst_retrieval (node : ParamNode ν κ) (nvps : List NameValPair) :
    TakesFirst (retrieval node nvps) := by
  unfold retrieval source
  rcases found : sourceBelow node.mntOptNames nvps node.mntOptNames.length with _ | ⟨a, i⟩
  · have none_ := sourceBelow_eq_none found
    refine ⟨fun a i isEntry => ?_, fun _ name among => ?_⟩
    · dsimp only at isEntry
      split at isEntry
      · split_ifs at isEntry
      · cases isEntry
    · obtain ⟨a, bound, rfl⟩ := List.getElem_of_mem among
      exact none_ a bound _ (List.getElem?_eq_getElem bound)
  · obtain ⟨here, above⟩ := sourceBelow_eq_some found
    refine ⟨fun a' i' isEntry => ?_, fun noEntry => absurd rfl (noEntry a i)⟩
    obtain ⟨rfl, rfl⟩ := Source.entry.inj isEntry
    refine ⟨here, fun a' more name there => ?_⟩
    exact above a' more (List.getElem?_eq_some_iff.mp there).1 name there

theorem gives_retrieval (node : ParamNode ν κ) (nvps : List NameValPair) : (retrieval node nvps).Gives := by
  have result := retrieveVal_source node nvps
  constructor
  · intro a i isEntry
    obtain ⟨⟨name, -, ⟨e, there, -⟩, -⟩, -⟩ := (takesFirst_retrieval node nvps).entry a i isEntry
    have isEntry : source node nvps = .entry a i := isEntry
    have there : nvps[i]? = some e := there
    rw [isEntry] at result
    dsimp only at result
    rw [there, Option.bind_some] at result
    exact ⟨e, there, _, node.gets_receive e.value, result⟩
  · intro isDefault
    have isDefault : source node nvps = .default := isDefault
    rw [isDefault] at result
    unfold source at isDefault
    split at isDefault
    · cases isDefault
    · split at isDefault
      · next d some_ =>
        split_ifs at isDefault with real
        exact ⟨d, some_, real, result.trans (congrArg (fun x => (true, { node with val := x }, nvps)) some_)⟩
      · cases isDefault
  · intro isNothing
    have isNothing : source node nvps = .nothing := isNothing
    rw [isNothing] at result
    refine ⟨fun d some_ => ?_, result⟩
    have some_ : node.defaultVal = some d := some_
    unfold source at isNothing
    split at isNothing
    · cases isNothing
    · rw [some_] at isNothing
      dsimp only at isNothing
      split_ifs at isNothing with real
      exact not_not.mp real

/-! ## Calls one after the other -/

/-- The places of the entries that are taken. -/
def consumed (calls : List (Retrieval ν κ)) : List ℕ :=
  calls.filterMap fun r =>
    match r.source with
    | .entry _ i => some i
    | _ => none

/-- Two lists with the same names and flags. -/
def SameMarks (nvps nvps' : List NameValPair) : Prop :=
  nvps.map (fun e => (e.name, e.processed)) = nvps'.map fun e => (e.name, e.processed)

/-- The list after some calls: what they have taken is marked as processed, and the values are any. -/
def Marked (start : List NameValPair) (calls : List (Retrieval ν κ)) (nvps : List NameValPair) : Prop :=
  ∀ i, (nvps[i]?).map (fun e => (e.name, e.processed)) =
    (start[i]?).map fun e => (e.name, e.processed || decide (i ∈ consumed calls))

/-- A list after one call of `retrieve_val`. -/
def afterCall (r : Retrieval ν κ) (nvps : List NameValPair) : List NameValPair :=
  match r.source with
  | .entry _ i => process i nvps
  | _ => nvps

/-- Entry number `i` has the given name, and has not been taken at the start or by the calls. -/
def Left (start : List NameValPair) (calls : List (Retrieval ν κ)) (name : CStr) (i : ℕ) : Prop :=
  FreeAt start name i ∧ i ∉ consumed calls

/-- How calls of `retrieve_val` share the entries of a list, of which each call finds the names and marks, with
what has been taken before. -/
structure TakesInOrder (start : List NameValPair) (calls : List (Retrieval ν κ)) : Prop where
  once : (consumed calls).Nodup
  inOrder : ∀ before, before <+: calls → ∀ j ∈ consumed before, ∀ i < j, ∀ e ∈ start[i]?,
    ∀ e' ∈ start[j]?, e.name = e'.name → e.processed = true ∨ i ∈ consumed before
  first : ∀ before r after, calls = before ++ r :: after → ∀ a i, r.source = .entry a i →
    (∃ name ∈ r.node.mntOptNames[a]?, Left start before name i ∧ ∀ i' < i, ¬ Left start before name i') ∧
      ∀ a' > a, ∀ name ∈ r.node.mntOptNames[a']?, ∀ i', ¬ Left start before name i'
  noEntry : ∀ before r after, calls = before ++ r :: after → r.source = .default ∨ r.source = .nothing →
    ∀ name ∈ r.node.mntOptNames, ∀ i, ¬ Left start before name i
  list : ∀ before r after, calls = before ++ r :: after → Marked start before r.nvps
  gives : ∀ r ∈ calls, r.Gives

theorem marked_start (nvps : List NameValPair) : Marked nvps ([] : List (Retrieval ν κ)) nvps := by
  intro i
  simp [consumed]

theorem Marked.same {start nvps nvps' : List NameValPair} {calls : List (Retrieval ν κ)}
    (marked : Marked start calls nvps) (same : SameMarks nvps nvps') : Marked start calls nvps' := by
  intro i
  have at_ := congrArg (fun l => l[i]?) same
  simp only [List.getElem?_map] at at_
  rw [← at_]
  exact marked i

theorem Marked.freeAt {start nvps : List NameValPair} {calls : List (Retrieval ν κ)}
    (marked : Marked start calls nvps) (name : CStr) (i : ℕ) :
    FreeAt nvps name i ↔ Left start calls name i := by
  have at_ := marked i
  unfold Left FreeAt
  rcases there : nvps[i]? with _ | e
  · rw [there, Option.map_none, eq_comm, Option.map_eq_none_iff] at at_
    simp [at_]
  · rw [there, Option.map_some, eq_comm, Option.map_eq_some_iff] at at_
    obtain ⟨e', there', same⟩ := at_
    obtain ⟨sameName, sameFlag⟩ := Prod.mk.inj same
    rw [there']
    simp [← sameName, ← sameFlag, and_assoc]

theorem consumed_append (before after : List (Retrieval ν κ)) :
    consumed (before ++ after) = consumed before ++ consumed after := by
  unfold consumed
  exact List.filterMap_append

theorem source_of_consumed {r : Retrieval ν κ} {j : ℕ} (among : j ∈ consumed [r]) :
    ∃ a, r.source = .entry a j := by
  obtain ⟨r', alone, taken⟩ := List.mem_filterMap.mp among
  rw [List.mem_singleton.mp alone] at taken
  split at taken
  · next a i isEntry =>
    cases taken
    exact ⟨a, isEntry⟩
  · cases taken

/-- A call marks what it takes. -/
theorem Marked.afterCall {start nvps : List NameValPair} {calls : List (Retrieval ν κ)}
    (marked : Marked start calls nvps) (r : Retrieval ν κ) :
    Marked start (calls ++ [r]) (afterCall r nvps) := by
  intro i
  have at_ := marked i
  unfold Ecryptfs.afterCall
  rw [consumed_append]
  split
  · next a j isEntry =>
    have one : consumed [r] = [j] := by simp [consumed, isEntry]
    unfold process
    rw [one, List.getElem?_modify]
    rcases listed : nvps[i]? with _ | e
    · rw [listed, Option.map_none, eq_comm, Option.map_eq_none_iff] at at_
      simp [at_]
    · rw [listed, Option.map_some, eq_comm, Option.map_eq_some_iff] at at_
      obtain ⟨e', there, same⟩ := at_
      obtain ⟨sameName, sameFlag⟩ := Prod.mk.inj same
      rw [there]
      by_cases here : j = i
      · simp [here, sameName]
      · simp [here, Ne.symm here, sameName, ← sameFlag]
  · next noEntry =>
    have none_ : consumed [r] = [] := by
      unfold consumed
      rw [List.filterMap_cons]
      split
      · rfl
      · next found =>
        split at found
        · next isEntry => exact absurd isEntry (noEntry _ _)
        · cases found
    rw [none_, List.append_nil]
    exact at_

theorem takesInOrder_nil (start : List NameValPair) : TakesInOrder start ([] : List (Retrieval ν κ)) where
  once := List.nodup_nil
  inOrder := by
    intro before prefix_ j among
    rw [List.prefix_nil.mp prefix_] at among
    cases among
  first := by
    intro before r after split
    exact absurd split.symm (by simp)
  noEntry := by
    intro before r after split
    exact absurd split.symm (by simp)
  list := by
    intro before r after split
    exact absurd split.symm (by simp)
  gives := by
    intro r among
    cases among

/-- A split of a list with one more call is one before it, or that of the last call. -/
theorem concat_eq_append {calls before after : List (Retrieval ν κ)} {r r' : Retrieval ν κ}
    (split : calls ++ [r] = before ++ r' :: after) :
    (∃ after', calls = before ++ r' :: after') ∨ before = calls ∧ r' = r := by
  rcases List.eq_nil_or_concat after with rfl | ⟨after', last, rfl⟩
  · obtain ⟨rfl, same⟩ := List.append_inj' split rfl
    exact .inr ⟨rfl, (List.singleton_inj.mp same).symm⟩
  · rw [List.concat_eq_append, ← List.cons_append, ← List.append_assoc] at split
    exact .inl ⟨after', (List.append_inj' split rfl).1⟩

section

variable {start : List NameValPair} {calls : List (Retrieval ν κ)} {r : Retrieval ν κ}

/-- One more call takes an entry that no call has taken. -/
theorem TakesInOrder.call_once (taken : TakesInOrder start calls) (marked : Marked start calls r.nvps)
    (fits : TakesFirst r) : (consumed (calls ++ [r])).Nodup := by
  rw [consumed_append]
  rcases isEntry : r.source with ⟨a, i⟩ | _ | _
  · obtain ⟨⟨name, -, free, -⟩, -⟩ := fits.entry a i isEntry
    have one : consumed [r] = [i] := by simp [consumed, isEntry]
    rw [one, List.nodup_append]
    refine ⟨taken.once, List.nodup_singleton i, fun j among k alone same => ?_⟩
    rw [List.mem_singleton.mp alone] at same
    exact ((marked.freeAt name i).mp free).2 (same ▸ among)
  · simpa [consumed, isEntry] using taken.once
  · simpa [consumed, isEntry] using taken.once

/-- The entries of one name are taken from the front. -/
theorem TakesInOrder.call_inOrder (taken : TakesInOrder start calls) (marked : Marked start calls r.nvps)
    (fits : TakesFirst r) {j : ℕ} (among : j ∈ consumed (calls ++ [r])) {i : ℕ} (less : i < j)
    {e e' : NameValPair} (there : e ∈ start[i]?) (there' : e' ∈ start[j]?) (sameName : e.name = e'.name) :
    e.processed = true ∨ i ∈ consumed (calls ++ [r]) := by
  rw [consumed_append, List.mem_append] at among ⊢
  rcases among with early | last
  · rcases taken.inOrder calls List.prefix_rfl j early i less e there e' there' sameName with flag | early'
    · exact .inl flag
    · exact .inr (.inl early')
  · -- an earlier entry of the name that is left would have been taken
    obtain ⟨a, isEntry⟩ := source_of_consumed last
    obtain ⟨⟨name, -, free, least⟩, -⟩ := fits.entry a j isEntry
    obtain ⟨⟨e'', there'', named, -⟩, -⟩ := (marked.freeAt name j).mp free
    cases there'.symm.trans there''
    by_contra kept
    rw [not_or, not_or] at kept
    obtain ⟨fresh, untaken, -⟩ := kept
    refine least i less ((marked.freeAt name i).mpr ⟨⟨e, there, sameName.trans named, ?_⟩, untaken⟩)
    exact Bool.eq_false_iff.mpr fresh

/-- One more call. -/
theorem TakesInOrder.call (taken : TakesInOrder start calls) (marked : Marked start calls r.nvps)
    (fits : TakesFirst r) (gives : r.Gives) : TakesInOrder start (calls ++ [r]) where
  once := taken.call_once marked fits
  inOrder before prefix_ j among i less e there e' there' sameName := by
    rcases List.prefix_concat_iff.mp prefix_ with rfl | prefix_
    · exact taken.call_inOrder marked fits among less there there' sameName
    · exact taken.inOrder before prefix_ j among i less e there e' there' sameName
  first before r' after split a i isEntry := by
    rcases concat_eq_append split with ⟨after', early⟩ | ⟨rfl, rfl⟩
    · exact taken.first before r' after' early a i isEntry
    · obtain ⟨⟨name, there, free, least⟩, above⟩ := fits.entry a i isEntry
      refine ⟨⟨name, there, (marked.freeAt name i).mp free, fun i' less left' => ?_⟩,
        fun a' more name' there' i' left' => ?_⟩
      · exact least i' less ((marked.freeAt name i').mpr left')
      · exact above a' more name' there' i' ((marked.freeAt name' i').mpr left')
  noEntry before r' after split none_ name among i left' := by
    rcases concat_eq_append split with ⟨after', early⟩ | ⟨rfl, rfl⟩
    · exact taken.noEntry before r' after' early none_ name among i left'
    · refine fits.noEntry (fun a j isEntry => ?_) name among i ((marked.freeAt name i).mpr left')
      rw [isEntry] at none_
      rcases none_ with isDefault | isNothing
      · cases isDefault
      · cases isNothing
  list before r' after split := by
    rcases concat_eq_append split with ⟨after', early⟩ | ⟨rfl, rfl⟩
    · exact taken.list before r' after' early
    · exact marked
  gives r' among := by
    rcases List.mem_append.mp among with early | last
    · exact taken.gives r' early
    · rw [List.mem_singleton.mp last]
      exact gives

end

/-- What is known after some calls: they share the entries in order, and their marks are in the list. -/
structure Recorded (start : List NameValPair) (calls : List (Retrieval ν κ)) (nvps : List NameValPair) :
    Prop where
  taken : TakesInOrder start calls
  marked : Marked start calls nvps

/-- **One more call of `retrieve_val`.** -/
theorem Recorded.call {start nvps : List NameValPair} {calls : List (Retrieval ν κ)}
    (recorded : Recorded start calls nvps) (node : ParamNode ν κ) :
    Recorded start (calls ++ [retrieval node nvps]) (retrieveVal node nvps).2.2 := by
  have after : (retrieveVal node nvps).2.2 = afterCall (retrieval node nvps) nvps := by
    rw [retrieveVal_source, afterCall, retrieval]
    rcases source node nvps with ⟨a, i⟩ | _ | _
    · rfl
    · rfl
    · rfl
  rw [after]
  have marked : Marked start calls (retrieval node nvps).nvps := recorded.marked
  exact ⟨recorded.taken.call marked (takesFirst_retrieval node nvps) (gives_retrieval node nvps),
    recorded.marked.afterCall _⟩

/-! ## Turns -/

variable [DecidableEq ν]

/-- The calls of `retrieve_val` in the loop over the nodes that follow by an implicit transition. -/
def implicitTrace (n : ν) (retrieved : Bool) :
    List (TransitionNode ν κ) → EvalState ν κ ω → List (Retrieval ν κ)
  | [], _ => []
  | tn :: tl, s =>
    match tn.nextToken with
    | none => if retrieved then [] else implicitTrace n retrieved tl s
    | some m =>
      retrieval (s.node m) s.nvps ::
        match retrieveVal (s.node m) s.nvps with
        | (true, _, _) => []
        | (false, node, nvps) => implicitTrace n false tl { s.setNode m node with nvps }

/-- The calls of `retrieve_val` in `alloc_and_get_val`. -/
def allocTrace (n : ν) (s : EvalState ν κ ω) : List (Retrieval ν κ) :=
  if (s.node n).val.isSome then []
  else
    retrieval (s.node n) s.nvps ::
      match retrieveVal (s.node n) s.nvps with
      | (retrieved, node, nvps) =>
        let s := { s.setNode n node with nvps }
        if retrieved ∧
            ¬ (node.flags.allowImplicitTransition ∧ node.flags.implicitOverrideDefault) then []
        else if node.flags.allowImplicitTransition ∧ node.flags.noAutoTransition = false then
          implicitTrace n retrieved node.tl s
        else []

variable {start : List NameValPair} {calls : List (Retrieval ν κ)} {n : ν} {s : EvalState ν κ ω}

theorem Recorded.implicit (retrieved : Bool) (tl : List (TransitionNode ν κ))
    (recorded : Recorded start calls s.nvps) :
    TakesInOrder start (calls ++ implicitTrace n retrieved tl s) ∧
      ∀ found t, implicitLoop n retrieved tl s = .ok (found, t) →
        Marked start (calls ++ implicitTrace n retrieved tl s) t.nvps := by
  induction tl generalizing calls retrieved s with
  | nil =>
    unfold implicitTrace implicitLoop
    rw [List.append_nil]
    refine ⟨recorded.taken, fun found t h => ?_⟩
    obtain ⟨-, rfl⟩ := Prod.mk.inj (Except.ok.inj h)
    exact recorded.marked
  | cons tn tl ih =>
    unfold implicitTrace implicitLoop
    rcases tn.nextToken with _ | m
    · dsimp only
      split_ifs with stops
      · rw [List.append_nil]
        exact ⟨recorded.taken, fun found t h => by cases h⟩
      · exact ih retrieved recorded
    · have next := recorded.call (s.node m)
      dsimp only
      rcases result : retrieveVal (s.node m) s.nvps with ⟨_ | _, node, nvps⟩
      all_goals rw [result] at next
      · rw [← List.singleton_append, ← List.append_assoc]
        exact ih false next
      · refine ⟨next.taken, fun found t h => ?_⟩
        obtain ⟨-, rfl⟩ := Prod.mk.inj (Except.ok.inj h)
        exact next.marked

theorem askVal_nvps {rc : ℤ} {t : EvalState ν κ ω} (h : askVal n s = .ok (rc, t)) : t.nvps = s.nvps :=
  askVal_inv (P := fun u => u.nvps = s.nvps) ⟨fun _ _ same => same, fun _ _ same => same⟩ rfl h

/-- The calls of one turn. -/
theorem Recorded.alloc (recorded : Recorded start calls s.nvps) :
    TakesInOrder start (calls ++ allocTrace n s) ∧
      ∀ rc t, allocAndGetVal n s = .ok (rc, t) → Marked start (calls ++ allocTrace n s) t.nvps := by
  unfold allocTrace allocAndGetVal
  by_cases given : (s.node n).val.isSome
  · rw [if_pos given, if_pos given, List.append_nil]
    refine ⟨recorded.taken, fun rc t h => ?_⟩
    obtain ⟨-, rfl⟩ := Prod.mk.inj (Except.ok.inj h)
    exact recorded.marked
  · have next := recorded.call (s.node n)
    rw [if_neg given, if_neg given]
    rcases result : retrieveVal (s.node n) s.nvps with ⟨retrieved, node, nvps⟩
    rw [result] at next
    dsimp only at next ⊢
    split_ifs with done implicit
    · refine ⟨next.taken, fun rc t h => ?_⟩
      obtain ⟨-, rfl⟩ := Prod.mk.inj (Except.ok.inj h)
      exact next.marked
    · have loop := Recorded.implicit retrieved node.tl (n := n)
        (s := { s.setNode n node with nvps }) next
      rw [← List.singleton_append, ← List.append_assoc]
      refine ⟨loop.1, fun rc t h => ?_⟩
      rcases looped : implicitLoop n retrieved node.tl { s.setNode n node with nvps } with
        why | ⟨_ | _, u⟩
      · rw [looped] at h
        cases h
      · rw [looped] at h
        rw [askVal_nvps h]
        exact loop.2 _ u looped
      · rw [looped] at h
        obtain ⟨-, rfl⟩ := Prod.mk.inj (Except.ok.inj h)
        exact loop.2 _ u looped
    · refine ⟨next.taken, fun rc t h => ?_⟩
      rw [askVal_nvps h]
      exact next.marked

/-! ## Runs -/

/-- Between two turns the values in the list may have become any others. -/
inductive Revalued : Config ν κ ω → Config ν κ ω → Prop
  | at_ {n : ν} {s : EvalState ν κ ω} {nvps : List NameValPair} (same : SameMarks s.nvps nvps) :
      Revalued (.at n s) (.at n { s with nvps })
  | done {rc : ℤ} {n : ν} {s : EvalState ν κ ω} {nvps : List NameValPair}
      (same : SameMarks s.nvps nvps) : Revalued (.done rc n s) (.done rc n { s with nvps })
  | stopped {why : Stop} : Revalued (.stopped why) (.stopped why)

/-- A run of `eval_param_tree` from some configuration, with its calls of `retrieve_val`.  The transition
functions change the values in the list as they like, but neither the names nor the flags. -/
inductive Evaluates (call : Callbacks ν κ ω) (c₀ : Config ν κ ω) :
    List (Retrieval ν κ) → Config ν κ ω → Prop
  | start : Evaluates call c₀ [] c₀
  | turn {calls : List (Retrieval ν κ)} {n : ν} {s : EvalState ν κ ω} {c c' : Config ν κ ω}
      (run : Evaluates call c₀ calls (.at n s)) (stepped : evalStep call (.at n s) = some c)
      (revalued : Revalued c c') : Evaluates call c₀ (calls ++ allocTrace n s) c'

/-- What is known throughout a run. -/
def Config.Recorded (start : List NameValPair) (calls : List (Retrieval ν κ)) (c : Config ν κ ω) : Prop :=
  TakesInOrder start calls ∧ c.Holds fun s => Marked start calls s.nvps

/-- One turn. -/
theorem recorded_turn {call : Callbacks ν κ ω} {c c' : Config ν κ ω}
    (recorded : Config.Recorded start calls (.at n s)) (stepped : evalStep call (.at n s) = some c)
    (revalued : Revalued c c') : c'.Recorded start (calls ++ allocTrace n s) := by
  have alloc := Recorded.alloc (n := n) ⟨recorded.1, recorded.2⟩
  have marked := (evalStep_inv (I := fun _ nvps => Marked start (calls ++ allocTrace n s) nvps)
    alloc.2 (fun _ _ _ same _ => same) stepped).1
  refine ⟨alloc.1, ?_⟩
  cases revalued with
  | at_ same => exact Marked.same marked same
  | done same => exact Marked.same marked same
  | stopped => trivial

theorem Evaluates.recorded {call : Callbacks ν κ ω} {root : ν} {c : Config ν κ ω}
    (run : Evaluates call (.at root s) calls c) : c.Recorded s.nvps calls := by
  induction run with
  | start => exact ⟨takesInOrder_nil s.nvps, marked_start s.nvps⟩
  | turn run stepped revalued ih => exact recorded_turn ih stepped revalued

/-- A run that has stopped at its start makes no calls. -/
theorem Evaluates.of_stopped {call : Callbacks ν κ ω} {why : Stop} {c : Config ν κ ω}
    (run : Evaluates call (.stopped why) calls c) : calls = [] := by
  have stays : calls = [] ∧ c = .stopped why := by
    induction run with
    | start => exact ⟨rfl, rfl⟩
    | turn run stepped revalued ih => cases ih.2
  exact stays.1

/-- **The entries are taken in order.**  In every run of `eval_param_tree` on any graph and any list,
whatever the transition functions do but to the names and flags of the list: no entry is taken twice,
those of a name are taken in their order, a node takes the first one of its last option that has one
left, and its default or nothing only when none of its options has; and each call returns the node with the value
of what it takes. -/
theorem takesInOrder_of_evaluates (call : Callbacks ν κ ω) (root : ν) (s : EvalState ν κ ω)
    (calls : List (Retrieval ν κ)) (c : Config ν κ ω) (run : Evaluates call (evalStart root s) calls c) :
    TakesInOrder s.nvps calls := by
  unfold evalStart at run
  split at run
  · rw [run.of_stopped]
    exact takesInOrder_nil s.nvps
  · exact run.recorded.1

end

/-- A node with two options. -/
def twoNames : ParamNode ℕ Unit := { mntOptNames := [lit "a", lit "b"] }

/-- Both are in the list. -/
def twoOptions : EvalState ℕ Unit Unit where
  world := ⟨fun _ => twoNames, [], ()⟩
  nvps := [⟨lit "a", some (lit "x"), false⟩, ⟨lit "b", some (lit "y"), false⟩]
  verbosity := 0
  hasGetString := false
  inputs := []

theorem takesInOrder_twoOptions : TakesInOrder twoOptions.nvps
    [⟨twoNames, twoOptions.nvps, .entry 1 1, true, { twoNames with val := some (lit "y") },
      [⟨lit "a", some (lit "x"), false⟩, ⟨lit "b", some (lit "y"), true⟩]⟩] := by
  have started : evalStart 0 twoOptions = .at 0 { twoOptions with
      verbosity := 1
      world := { twoOptions.world with stack := [none] } } := by rfl
  have run := Evaluates.turn .start
    (show evalStep (fun _ _ _ w => .ok (0, w)) (.at 0 { twoOptions with
      verbosity := 1
      world := { twoOptions.world with stack := [none] } }) = some _ from rfl) (.done rfl)
  exact takesInOrder_of_evaluates _ 0 twoOptions _ _ (started ▸ run)

end Ecryptfs
