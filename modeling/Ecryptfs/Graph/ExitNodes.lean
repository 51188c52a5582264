import Ecryptfs.Graph.Build
import Ecryptfs.Lib.Acyclic
import Mathlib.Order.Filter.AtTopBot.Basic
import Mathlib.Order.Filter.Finite

/-!
# The exit of a graph

`ecryptfs_set_exit_param_on_graph` sets the open ends of a whole graph.  It does not remember the nodes
where it has been: it enters a shared node once for every way to it, and after the first time it goes on
into the exit.  On a finite graph without cycles, with an exit of the same kind that has no open end
behind it, the recursion ends nevertheless, whatever edges it has added so far
(`ecryptfsSetExitParamOnGraph_sets`).
-/

namespace Ecryptfs

open Acyclic Relation

variable {ν κ : Type} [DecidableEq ν]

/-! ## The recursion -/

/-- `set_exit_param_node_for_node`, or `none` if it calls itself more than the given number of times
inside each other; its code is always zero. -/
def setExitParamNodeForNode (exit : ν) (recursive : Bool) :
    ℕ → ν → (ν → ParamNode ν κ) → Option (ν → ParamNode ν κ)
  | 0, _, _ => none
  | depth + 1, n, nodes =>
    (List.range (nodes n).tl.length).foldlM
      (fun nodes i =>
        match (nodes n).tl[i]? with
        | none => some nodes
        | some tn =>
          match tn.nextToken with
          | none => some (Function.update nodes n
              { nodes n with tl := (nodes n).tl.set i (tn.exit exit) })
          | some m =>
            if recursive then setExitParamNodeForNode exit recursive depth m nodes else some nodes)
      nodes

/-- `ecryptfs_set_exit_param_on_graph`, with a bound on the recursion. -/
def ecryptfsSetExitParamOnGraph (depth : ℕ) (root exit : ν) (nodes : ν → ParamNode ν κ) :
    Option (ν → ParamNode ν κ) :=
  setExitParamNodeForNode exit true depth root nodes

/-- A transition of one node leads to the other one. -/
def Edge (nodes : ν → ParamNode ν κ) (n m : ν) : Prop := ∃ tn ∈ (nodes n).tl, tn.nextToken = some m

/-- The open ends that are reached from the root now lead to the exit by default, all other transitions
and all other nodes are as before, and no open end is reached any more. -/
structure ExitsSet (root exit : ν) (nodes exited : ν → ParamNode ν κ) : Prop where
  closed : ∀ k, ReflTransGen (Edge exited) root k → NoOpenEnd exited k
  set : ∀ k, ReflTransGen (Edge nodes) root k → exited k = { nodes k with
    tl := (nodes k).tl.map fun tn => if tn.nextToken = none then tn.exit exit else tn }
  same : ∀ k, ¬ ReflTransGen (Edge nodes) root k → exited k = nodes k

/-- What `setExitParamNodeForNode` does at one transition of a node. -/
def setExitAt (exit : ν) (depth : ℕ) (n : ν) (nodes : ν → ParamNode ν κ) (i : ℕ) :
    Option (ν → ParamNode ν κ) :=
  match (nodes n).tl[i]? with
  | none => some nodes
  | some tn =>
    match tn.nextToken with
    | none => some (Function.update nodes n
        { nodes n with tl := (nodes n).tl.set i (tn.exit exit) })
    | some m => setExitParamNodeForNode exit true depth m nodes

variable {exit root n : ν} {depth : ℕ} {nodes exited : ν → ParamNode ν κ}

theorem setExitParamNodeForNode_succ (exit : ν) (depth : ℕ) (n : ν) (nodes : ν → ParamNode ν κ) :
    setExitParamNodeForNode exit true (depth + 1) n nodes =
      (List.range (nodes n).tl.length).foldlM (setExitAt exit depth n) nodes := rfl

/-! ## Loops -/

section

variable {α β : Type} {f g : α → β → Option α} {l : List β} {a b : α}

/-- A loop whose turns do at least as much does at least as much. -/
theorem foldlM_mono (le : ∀ a i b, f a i = some b → g a i = some b) (done : l.foldlM f a = some b) :
    l.foldlM g a = some b := by
  induction l generalizing a with
  | nil => exact done
  | cons i l ih =>
    rw [List.foldlM_cons] at done ⊢
    obtain ⟨c, first, rest⟩ := Option.bind_eq_some_iff.mp done
    rw [le a i c first]
    exact ih rest

/-- A loop whose turns all succeed while an invariant holds. -/
theorem foldlM_total {P : α → Prop} (turn : ∀ a i, P a → ∃ b, f a i = some b ∧ P b) (start : P a) :
    ∃ b, l.foldlM f a = some b ∧ P b := by
  induction l generalizing a with
  | nil => exact ⟨a, rfl, start⟩
  | cons i l ih =>
    obtain ⟨c, first, holds⟩ := turn a i start
    obtain ⟨b, rest, holds⟩ := ih holds
    refine ⟨b, ?_, holds⟩
    rw [List.foldlM_cons, first]
    exact rest

/-- A loop that succeeds does what it does without failures. -/
theorem foldlM_eq_foldl {h : α → β → α} (agrees : ∀ a i b, f a i = some b → b = h a i)
    (done : l.foldlM f a = some b) : b = l.foldl h a := by
  induction l generalizing a with
  | nil => exact (Option.some.inj done).symm
  | cons i l ih =>
    rw [List.foldlM_cons] at done
    obtain ⟨c, first, rest⟩ := Option.bind_eq_some_iff.mp done
    rw [List.foldl_cons, ← agrees a i c first]
    exact ih rest

end

/-! ## Turns -/

/-- A turn sets an open end, whatever the bound, or follows a transition. -/
theorem setExitAt_cases (exit n : ν) (nodes : ν → ParamNode ν κ) (i : ℕ) :
    (∃ after, ∀ depth, setExitAt exit depth n nodes i = some after ∧
      exitAt exit depth n nodes i = after) ∨
    ∃ tn m, (nodes n).tl[i]? = some tn ∧ tn.nextToken = some m ∧
      ∀ depth, setExitAt exit depth n nodes i = setExitParamNodeForNode exit true depth m nodes ∧
        exitAt exit depth n nodes i = setExit exit depth m nodes := by
  unfold setExitAt exitAt
  rcases there : (nodes n).tl[i]? with _ | tn
  · exact .inl ⟨nodes, fun _ => ⟨rfl, rfl⟩⟩
  · dsimp only
    rcases leads : tn.nextToken with _ | m
    · exact .inl ⟨_, fun _ => ⟨rfl, rfl⟩⟩
    · exact .inr ⟨tn, m, rfl, leads, fun _ => ⟨rfl, rfl⟩⟩

/-- A recursion that ends also ends with a larger bound. -/
theorem setExitParamNodeForNode_mono {deeper : ℕ} (le : depth ≤ deeper)
    (done : setExitParamNodeForNode exit true depth n nodes = some exited) :
    setExitParamNodeForNode exit true deeper n nodes = some exited := by
  induction depth generalizing deeper n nodes exited with
  | zero => cases done
  | succ depth ih =>
    obtain ⟨deeper, rfl⟩ := Nat.exists_eq_add_of_le' (Nat.one_le_of_lt le)
    rw [setExitParamNodeForNode_succ] at done ⊢
    refine foldlM_mono (fun nodes i after turn => ?_) done
    rcases setExitAt_cases exit n nodes i with ⟨_, same⟩ | ⟨_, m, -, -, follows⟩
    · rw [(same depth).1] at turn
      rw [(same deeper).1, turn]
    · rw [(follows depth).1] at turn
      rw [(follows deeper).1]
      exact ih (Nat.le_of_succ_le_succ le) turn

/-- A recursion that ends does what it does to the depth of its bound. -/
theorem setExit_of_done (done : setExitParamNodeForNode exit true depth n nodes = some exited) :
    exited = setExit exit depth n nodes := by
  induction depth generalizing n nodes exited with
  | zero => cases done
  | succ depth ih =>
    rw [setExitParamNodeForNode_succ] at done
    rw [setExit_succ]
    refine foldlM_eq_foldl (fun nodes i after turn => ?_) done
    rcases setExitAt_cases exit n nodes i with ⟨_, same⟩ | ⟨_, m, -, -, follows⟩
    · rw [(same depth).1] at turn
      rw [(same depth).2, Option.some.inj turn]
    · rw [(follows depth).1] at turn
      rw [(follows depth).2]
      exact ih turn

/-! ## Termination -/

/-- The edges that the recursion can meet: those of the graph, and those from its open ends to the
exit. -/
def EdgeOrExit (exit : ν) (nodes : ν → ParamNode ν κ) (n m : ν) : Prop :=
  Edge nodes n m ∨ (¬ NoOpenEnd nodes n ∧ m = exit)

omit [DecidableEq ν] in
theorem edgeOrExit_finite (exit : ν) (nodes : ν → ParamNode ν κ) (n : ν) :
    {m | EdgeOrExit exit nodes n m}.Finite := by
  refine (List.finite_toSet (exit :: (nodes n).tl.filterMap (·.nextToken))).subset ?_
  rintro m (⟨tn, among, leads⟩ | ⟨-, rfl⟩)
  · exact List.mem_cons_of_mem _ (List.mem_filterMap.mpr ⟨tn, among, leads⟩)
  · exact List.mem_cons_self

omit [DecidableEq ν] in
/-- What a transition leads to after some open ends were set. -/
theorem PatchedNodes.edgeOrExit (patched : PatchedNodes exit nodes exited) {m : ν} {i : ℕ}
    {tn : TransitionNode ν κ} (there : (exited n).tl[i]? = some tn) (leads : tn.nextToken = some m) :
    EdgeOrExit exit nodes n m := by
  have bound : i < (nodes n).tl.length := by
    rw [← patched.length n]
    exact (List.getElem?_eq_some_iff.mp there).1
  obtain ⟨tn', there', changed⟩ :=
    patched.transitions n i _ (List.getElem?_eq_getElem bound)
  obtain rfl := Option.some.inj (there.symm.trans there')
  rcases changed with same | ⟨open_, rfl⟩
  · exact .inl ⟨tn, same ▸ List.getElem_mem bound, leads⟩
  · exact .inr ⟨fun closed => closed _ (List.getElem_mem bound) open_, (Option.some.inj leads).symm⟩

/-- Where the edges that can be met come to an end, so does the recursion, on all the graphs that it can
make of this one. -/
theorem setExitParamNodeForNode_terminates (ends : Acc (flip (EdgeOrExit exit nodes)) n) :
    ∀ᶠ depth in Filter.atTop, ∀ current, PatchedNodes exit nodes current →
      ∃ exited, setExitParamNodeForNode exit true depth n current = some exited := by
  induction ends with
  | intro n _ ih =>
    have all := (Filter.eventually_all_finite (edgeOrExit_finite exit nodes n)).mpr fun m leads =>
      ih m leads
    obtain ⟨bound, deep⟩ := Filter.eventually_atTop.mp all
    refine Filter.eventually_atTop.mpr ⟨bound + 1, fun depth le current patched => ?_⟩
    obtain ⟨depth, rfl⟩ := Nat.exists_eq_add_of_le' (Nat.one_le_of_lt le)
    rw [setExitParamNodeForNode_succ]
    -- every turn starts from a graph with some more open ends set
    have turn : ∀ now i, PatchedNodes exit nodes now →
        ∃ after, setExitAt exit depth n now i = some after ∧ PatchedNodes exit nodes after := by
      intro now i patched
      rcases setExitAt_cases exit n now i with ⟨after, same⟩ | ⟨tn, m, there, leads, follows⟩
      · refine ⟨after, (same depth).1, ?_⟩
        rw [← (same depth).2]
        exact patched.trans (exitAt_patched exit depth n now i)
      · obtain ⟨after, done⟩ := deep depth (Nat.le_of_succ_le_succ le) m
          (patched.edgeOrExit there leads) now patched
        refine ⟨after, (follows depth).1.trans done, ?_⟩
        rw [setExit_of_done done]
        exact patched.trans (setExit_patched exit depth m now)
    obtain ⟨exited, done, -⟩ := foldlM_total turn patched
    exact ⟨exited, done⟩

/-- The recursion ends on a finite graph without cycles if the exit is of the same kind and has no open
end behind it. -/
theorem setExit_terminates (graph : FiniteAcyclic (Edge nodes) root)
    (exitGraph : FiniteAcyclic (Edge nodes) exit)
    (noOpenEnd : ∀ k, ReflTransGen (Edge nodes) exit k → NoOpenEnd nodes k) :
    ∀ᶠ depth in Filter.atTop, ∃ exited,
      setExitParamNodeForNode exit true depth root nodes = some exited := by
  have ends : Acc (flip (EdgeOrExit exit nodes)) root := by
    refine acc_of_added (r := Edge nodes) (e := exit) ?_ ?_ exitGraph.acc graph.acc
    · rintro x y (edge | ⟨-, isExit⟩)
      · exact .inl edge
      · exact .inr isExit
    · rintro x y behind (edge | ⟨isOpen, -⟩)
      · exact edge
      · exact absurd (noOpenEnd x behind) isOpen
  filter_upwards [setExitParamNodeForNode_terminates ends] with depth terminates
  exact terminates nodes .refl

/-! ## The result -/

omit [DecidableEq ν] in
/-- What is reached is reached along a way. -/
theorem exists_way {k : ν} (reached : ReflTransGen (Edge nodes) n k) : ∃ d, Way nodes d n k := by
  induction reached using ReflTransGen.head_induction_on with
  | refl => exact ⟨0, .here k⟩
  | head edge _ ih =>
    obtain ⟨tn, among, leads⟩ := edge
    obtain ⟨d, way⟩ := ih
    exact ⟨d + 1, .step tn among leads way⟩

omit [DecidableEq ν] in
/-- A node all of whose open ends were set. -/
theorem PatchedNodes.all {k : ν} (patched : PatchedNodes exit nodes exited)
    (closed : NoOpenEnd exited k) : exited k = { nodes k with
      tl := (nodes k).tl.map fun tn => if tn.nextToken = none then tn.exit exit else tn } := by
  obtain ⟨tl, fields⟩ := patched.fields k
  have all : (exited k).tl =
      (nodes k).tl.map fun tn => if tn.nextToken = none then tn.exit exit else tn := by
    refine List.ext_getElem (by rw [patched.length, List.length_map]) fun i there there' => ?_
    rw [List.length_map] at there'
    rw [List.getElem_map]
    obtain ⟨tn', here, changed⟩ :=
      patched.transitions k i _ (List.getElem?_eq_getElem there')
    obtain rfl := Option.some.inj ((List.getElem?_eq_getElem there).symm.trans here)
    rcases changed with same | ⟨isOpen, set⟩
    · rw [if_neg, same]
      rw [← same]
      exact closed _ (List.getElem_mem there)
    · rw [if_pos isOpen, set]
  rw [fields] at all ⊢
  exact congrArg (fun tl => ({ nodes k with tl } : ParamNode ν κ)) all

/-- The nodes that the recursion can come to. -/
def Touched (root exit : ν) (nodes : ν → ParamNode ν κ) (k : ν) : Prop :=
  ReflTransGen (Edge nodes) root k ∨ ReflTransGen (Edge nodes) exit k

omit [DecidableEq ν] in
theorem touched_inside (root exit : ν) (nodes : ν → ParamNode ν κ) :
    Inside nodes (Touched root exit nodes) := by
  intro k touched tn among m leads
  have edge : Edge nodes k m := ⟨tn, among, leads⟩
  exact touched.imp (·.tail edge) (·.tail edge)

omit [DecidableEq ν] in
/-- From the root the recursion only comes to nodes that it can come to. -/
theorem Exited.touched (frame : Exited (Touched root exit nodes) exit nodes exited) {k : ν}
    (reached : ReflTransGen (Edge exited) root k) : Touched root exit nodes k := by
  induction reached with
  | refl => exact .inl .refl
  | tail _ edge ih =>
    obtain ⟨tn, among, leads⟩ := edge
    exact frame.inside _ ih tn among _ leads

/-- What is left when the recursion has ended for every bound that is large enough. -/
theorem exitsSet_of_done {bound : ℕ}
    (noOpenEnd : ∀ k, ReflTransGen (Edge nodes) exit k → NoOpenEnd nodes k)
    (agrees : ∀ depth ≥ bound, exited = setExit exit depth root nodes) :
    ExitsSet root exit nodes exited := by
  have patched : PatchedNodes exit nodes exited := by
    rw [agrees bound le_rfl]
    exact setExit_patched exit bound root nodes
  have frame : Exited (Touched root exit nodes) exit nodes exited := by
    rw [agrees bound le_rfl]
    exact (Exited.refl (touched_inside root exit nodes)).setExit (.inr .refl) (.inl .refl)
  have closed : ∀ k, ReflTransGen (Edge nodes) root k → NoOpenEnd exited k := by
    intro k reached
    obtain ⟨d, way⟩ := exists_way reached
    rw [agrees (max bound (d + 1)) (le_max_left _ _)]
    exact setExit_closes way (Nat.lt_of_succ_le (le_max_right _ _))
  have behind : ∀ k, ReflTransGen (Edge nodes) exit k → exited k = nodes k :=
    fun k reached => patched.noOpenEnd (noOpenEnd k reached)
  refine ⟨fun k reached => ?_, fun k reached => patched.all (closed k reached), fun k apart => ?_⟩
  · rcases frame.touched reached with inGraph | behindExit
    · exact closed k inGraph
    · exact (noOpenEnd k behindExit).patched patched
  · by_cases behindExit : ReflTransGen (Edge nodes) exit k
    · exact behind k behindExit
    · exact frame.same k fun touched => absurd (touched.resolve_left apart) behindExit

/-- **The exit of a graph.**  On a finite graph without cycles, and with an exit that leads to a finite
graph without cycles and open ends, the recursion ends; then the open ends that are reached from the root
lead to the exit by default, and nothing else has changed. -/
theorem ecryptfsSetExitParamOnGraph_sets (graph : FiniteAcyclic (Edge nodes) root)
    (exitGraph : FiniteAcyclic (Edge nodes) exit)
    (noOpenEnd : ∀ k, ReflTransGen (Edge nodes) exit k → NoOpenEnd nodes k) :
    ∃ exited, (∀ᶠ depth in Filter.atTop,
        ecryptfsSetExitParamOnGraph depth root exit nodes = some exited) ∧
      ExitsSet root exit nodes exited := by
  obtain ⟨bound, terminates⟩ :=
    Filter.eventually_atTop.mp (setExit_terminates graph exitGraph noOpenEnd)
  obtain ⟨exited, done⟩ := terminates bound le_rfl
  have atDepth : ∀ depth ≥ bound, setExitParamNodeForNode exit true depth root nodes = some exited :=
    fun depth le => setExitParamNodeForNode_mono le done
  exact ⟨exited, Filter.eventually_atTop.mpr ⟨bound, atDepth⟩,
    exitsSet_of_done noOpenEnd fun depth le => setExit_of_done (atDepth depth le)⟩

/-- Two nodes share a node with an open end; the exit is node 4. -/
def diamond : Fin 6 → ParamNode (Fin 6) Unit := fun n =>
  { mntOptNames := [], tl := (targets n).map fun nextToken =>
      { val := none, nextToken, transFunc := none } }
where
  targets : Fin 6 → List (Option (Fin 6))
    | 0 => [some 1, some 2]
    | 1 | 2 => [some 3]
    | 3 => [none]
    | 4 => [some 5]
    | 5 => []

theorem diamond_finiteAcyclic (n : Fin 6) : FiniteAcyclic (Edge diamond) n := by
  have up : ∀ x : Fin 6, ∀ tn ∈ (diamond x).tl, ∀ y, tn.nextToken = some y → x < y := by decide
  refine ⟨Set.toFinite _, fun b _ => not_cyclic_of_rank Fin.val ?_ b⟩
  rintro x y ⟨tn, among, leads⟩
  exact up x tn among y leads

/-- The shared node is entered a second time after its open end was set, and the recursion goes on into
the exit. -/
theorem diamond_exitsSet : ∃ exited, (∀ᶠ depth in Filter.atTop,
      ecryptfsSetExitParamOnGraph depth 0 4 diamond = some exited) ∧
    ExitsSet 0 4 diamond exited := by
  have later : ∀ k : Fin 6, 4 ≤ k → ∀ tn ∈ (diamond k).tl, ∀ m, tn.nextToken = some m → 4 ≤ m := by
    decide
  have closed : ∀ k : Fin 6, 4 ≤ k → ∀ tn ∈ (diamond k).tl, tn.nextToken ≠ none := by decide
  refine ecryptfsSetExitParamOnGraph_sets (diamond_finiteAcyclic 0) (diamond_finiteAcyclic 4) ?_
  intro k reached
  have behind : 4 ≤ k := by
    induction reached with
    | refl => exact le_refl _
    | tail _ edge ih =>
      obtain ⟨tn, among, leads⟩ := edge
      exact later _ ih tn among _ leads
  exact closed k behind

end Ecryptfs
