import Ecryptfs.Graph.Engine

/-!
# Building decision graphs

The operations by which a graph is put together: pointing the open ends of a graph to an exit node, and
listing the option names of a subgraph.  The recursive ones follow transitions, to a depth given as an
argument.
-/

namespace Ecryptfs

variable {ν κ : Type} [DecidableEq ν]

/-- All transitions of a node lead to `target`. -/
def setNextTokens (nodes : ν → ParamNode ν κ) (n target : ν) : ν → ParamNode ν κ :=
  Function.update nodes n
    { nodes n with tl := (nodes n).tl.map fun tn => { tn with nextToken := some target } }

/-- The default transition to `exit` that replaces a transition without a next node. -/
def TransitionNode.exit (tn : TransitionNode ν κ) (exit : ν) : TransitionNode ν κ :=
  { tn with val := some (lit "default"), nextToken := some exit }

/-- `set_exit_param_node_for_node` with `recursive` set, to the given depth. -/
def setExit (exit : ν) : ℕ → ν → (ν → ParamNode ν κ) → ν → ParamNode ν κ
  | 0, _, nodes => nodes
  | depth + 1, n, nodes =>
    (List.range (nodes n).tl.length).foldl
      (fun nodes i =>
        match (nodes n).tl[i]? with
        | none => nodes
        | some tn =>
          match tn.nextToken with
          | none => Function.update nodes n
              { nodes n with tl := (nodes n).tl.set i (tn.exit exit) }
          | some m => setExit exit depth m nodes)
      nodes

/-- The names that `ecryptfs_insert_params` lists for a node and what follows it, to the given
depth. -/
def insertParams (nodes : ν → ParamNode ν κ) : ℕ → ν → List CStr
  | 0, _ => []
  | depth + 1, n => (nodes n).mntOptNames ++
      (nodes n).tl.flatMap fun tn =>
        match tn.nextToken with
        | none => []
        | some m => insertParams nodes depth m

/-! ## Exits -/

/-- A set of nodes whose transitions all lead to nodes of the set. -/
def Closed (nodes : ν → ParamNode ν κ) (C : ν → Prop) : Prop :=
  ∀ n, C n → ∀ tn ∈ (nodes n).tl, ∃ m, C m ∧ tn.nextToken = some m

/-- There is no open end to set in a closed set of nodes. -/
theorem setExit_closed {nodes : ν → ParamNode ν κ} {C : ν → Prop} (closed : Closed nodes C)
    {exit n : ν} {depth : ℕ} (inside : C n) : setExit exit depth n nodes = nodes := by
  induction depth generalizing n with
  | zero => rfl
  | succ depth ih =>
    rw [setExit]
    apply List.foldlRecOn (motive := fun result => result = nodes) _ _ rfl
    rintro _ rfl i -
    split
    · rfl
    · next tn found =>
      obtain ⟨m, inside', next_⟩ := closed n inside tn (List.mem_of_getElem? found)
      rw [next_]
      exact ih inside'

theorem setExit_open {nodes : ν → ParamNode ν κ} {exit n : ν} {depth : ℕ}
    {tn : TransitionNode ν κ} (only : (nodes n).tl = [tn]) (isOpen : tn.nextToken = none) :
    setExit exit (depth + 1) n nodes =
      Function.update nodes n { nodes n with tl := [tn.exit exit] } := by
  rw [setExit, only]
  simp [only, isOpen]

/-- If all is closed after the first transition of a node was followed, there is nothing left to do
for the other ones. -/
theorem setExit_descend {nodes exited : ν → ParamNode ν κ} {C : ν → Prop} {exit n m : ν} {depth : ℕ}
    {tn : TransitionNode ν κ} {rest : List (TransitionNode ν κ)} (all : (nodes n).tl = tn :: rest)
    (first : tn.nextToken = some m) (down : setExit exit depth m nodes = exited)
    (kept : (exited n).tl = (nodes n).tl) (closed : Closed exited C)
    (others : ∀ u ∈ rest, ∃ k, C k ∧ u.nextToken = some k) :
    setExit exit (depth + 1) n nodes = exited := by
  rw [setExit, all, List.length_cons, List.range_succ_eq_map, List.foldl_cons]
  simp only [all, List.getElem?_cons_zero, first, down]
  apply List.foldlRecOn (motive := fun result => result = exited) _ _ rfl
  rintro _ rfl i later
  obtain ⟨i, -, rfl⟩ := List.mem_map.mp later
  rw [kept, all, List.getElem?_cons_succ]
  split
  · rfl
  · next u found =>
    obtain ⟨k, inside, next_⟩ := others u (List.mem_of_getElem? found)
    rw [next_]
    exact setExit_closed closed inside

/-- No transition leads out of a set of nodes. -/
def Inside (nodes : ν → ParamNode ν κ) (C : ν → Prop) : Prop :=
  ∀ n, C n → ∀ tn ∈ (nodes n).tl, ∀ m, tn.nextToken = some m → C m

/-- What `setExit` keeps of a graph when it works in a set of nodes: the nodes without an open end,
the other nodes, and all but the next nodes and labels of the open ends. -/
structure Exited (C : ν → Prop) (exit : ν) (nodes exited : ν → ParamNode ν κ) : Prop where
  inside : Inside exited C
  same : ∀ k, (C k → ∀ tn ∈ (nodes k).tl, tn.nextToken ≠ none) → exited k = nodes k
  fields : ∀ k, ∃ tl, exited k = { nodes k with tl }
  origin : ∀ k, ∀ tn ∈ (exited k).tl, ∃ tn₀ ∈ (nodes k).tl, tn.transFunc = tn₀.transFunc ∧
    (tn.nextToken = tn₀.nextToken ∨ tn.nextToken = some exit)

omit [DecidableEq ν] in
theorem Exited.refl {nodes : ν → ParamNode ν κ} {C : ν → Prop} {exit : ν} (inside : Inside nodes C) :
    Exited C exit nodes nodes :=
  ⟨inside, fun _ _ => rfl, fun _ => ⟨_, rfl⟩, fun _ tn among => ⟨tn, among, rfl, .inl rfl⟩⟩

theorem Exited.setExit {nodes exited : ν → ParamNode ν κ} {C : ν → Prop} {exit n : ν} {depth : ℕ}
    (before : Exited C exit nodes exited) (exitInside : C exit) (here : C n) :
    Exited C exit nodes (setExit exit depth n exited) := by
  induction depth generalizing n exited with
  | zero => exact before
  | succ depth ih =>
    rw [Ecryptfs.setExit]
    apply List.foldlRecOn (motive := Exited C exit nodes) _ _ before
    rintro current now i -
    split
    · exact now
    · next tn found =>
      have member := List.mem_of_getElem? found
      split
      · next next_ =>
        refine ⟨fun k inC u among m leads => ?_, fun k ends => ?_, fun k => ?_, fun k u among => ?_⟩
        · rw [Function.update_apply] at among
          split_ifs at among with same
          · rcases List.mem_or_eq_of_mem_set among with among | rfl
            · exact now.inside n here u among m leads
            · exact Option.some.inj leads ▸ exitInside
          · exact now.inside k inC u among m leads
        · rw [Function.update_apply]
          split_ifs with same
          · -- the node had an open end to begin with
            subst same
            rw [now.same k ends] at member
            exact absurd next_ (ends here tn member)
          · exact now.same k ends
        · rw [Function.update_apply]
          split_ifs with same
          · subst same
            obtain ⟨tl, fields⟩ := now.fields k
            exact ⟨_, by rw [fields]⟩
          · exact now.fields k
        · rw [Function.update_apply] at among
          split_ifs at among with same
          · subst same
            rcases List.mem_or_eq_of_mem_set among with among | rfl
            · exact now.origin k u among
            · obtain ⟨tn₀, among₀, func, -⟩ := now.origin k tn member
              exact ⟨tn₀, among₀, func, .inr rfl⟩
          · exact now.origin k u among
      · next m next_ => exact ih now (now.inside n here tn member m next_)

/-! ## Ways to the open ends -/

/-- What becomes of a transition when open ends are set. -/
def Patched (exit : ν) (tn tn' : TransitionNode ν κ) : Prop :=
  tn' = tn ∨ (tn.nextToken = none ∧ tn' = tn.exit exit)

/-- Some open ends of a graph are set. -/
structure PatchedNodes (exit : ν) (nodes nodes' : ν → ParamNode ν κ) : Prop where
  fields : ∀ k, ∃ tl, nodes' k = { nodes k with tl }
  length : ∀ k, (nodes' k).tl.length = (nodes k).tl.length
  transitions : ∀ (k : ν) (i : ℕ) (tn : TransitionNode ν κ), (nodes k).tl[i]? = some tn →
    ∃ tn', (nodes' k).tl[i]? = some tn' ∧ Patched exit tn tn'

/-- A node without open ends. -/
def NoOpenEnd (nodes : ν → ParamNode ν κ) (k : ν) : Prop := ∀ tn ∈ (nodes k).tl, tn.nextToken ≠ none

/-- A way of the given length along the transitions of a graph. -/
inductive Way (nodes : ν → ParamNode ν κ) : ℕ → ν → ν → Prop
  | here (n : ν) : Way nodes 0 n n
  | step {d : ℕ} {n m k : ν} (tn : TransitionNode ν κ) (among : tn ∈ (nodes n).tl)
      (leads : tn.nextToken = some m) (rest : Way nodes d m k) : Way nodes (d + 1) n k

section

omit [DecidableEq ν]

variable {exit : ν} {nodes nodes' nodes'' : ν → ParamNode ν κ}

theorem PatchedNodes.refl : PatchedNodes exit nodes nodes :=
  ⟨fun _ => ⟨_, rfl⟩, fun _ => rfl, fun _ _ tn there => ⟨tn, there, .inl rfl⟩⟩

theorem PatchedNodes.trans (first : PatchedNodes exit nodes nodes')
    (second : PatchedNodes exit nodes' nodes'') : PatchedNodes exit nodes nodes'' := by
  refine ⟨fun k => ?_, fun k => (second.length k).trans (first.length k), fun k i tn there => ?_⟩
  · obtain ⟨tl, fields⟩ := first.fields k
    obtain ⟨tl', fields'⟩ := second.fields k
    rw [fields] at fields'
    exact ⟨tl', fields'⟩
  · obtain ⟨tn', there', patched⟩ := first.transitions k i tn there
    obtain ⟨tn'', there'', patched'⟩ := second.transitions k i tn' there'
    refine ⟨tn'', there'', ?_⟩
    rcases patched' with rfl | ⟨open_, rfl⟩
    · exact patched
    · rcases patched with rfl | ⟨-, rfl⟩
      · exact .inr ⟨open_, rfl⟩
      · cases open_

/-- A transition with a next node stays. -/
theorem PatchedNodes.kept (patched : PatchedNodes exit nodes nodes') {k m : ν} {i : ℕ}
    {tn : TransitionNode ν κ} (there : (nodes k).tl[i]? = some tn) (leads : tn.nextToken = some m) :
    (nodes' k).tl[i]? = some tn := by
  obtain ⟨tn', there', rfl | ⟨open_, -⟩⟩ := patched.transitions k i tn there
  · exact there'
  · rw [leads] at open_
    cases open_

/-- Every transition was there before, perhaps with an open end. -/
theorem PatchedNodes.origin (patched : PatchedNodes exit nodes nodes') {k : ν} {tn' : TransitionNode ν κ}
    (among : tn' ∈ (nodes' k).tl) : ∃ tn ∈ (nodes k).tl, Patched exit tn tn' := by
  obtain ⟨i, there'⟩ := List.getElem?_of_mem among
  have inside : i < (nodes k).tl.length := patched.length k ▸ (List.getElem?_eq_some_iff.mp there').1
  obtain ⟨tn'', there'', isPatched⟩ := patched.transitions k i _ (List.getElem?_eq_getElem inside)
  obtain rfl := Option.some.inj (there'.symm.trans there'')
  exact ⟨_, List.getElem_mem inside, isPatched⟩

theorem PatchedNodes.way (patched : PatchedNodes exit nodes nodes') {d : ℕ} {n k : ν}
    (way : Way nodes d n k) : Way nodes' d n k := by
  induction way with
  | here n => exact .here n
  | step tn among leads rest ih =>
    obtain ⟨i, there⟩ := List.getElem?_of_mem among
    exact .step tn (List.mem_of_getElem? (patched.kept there leads)) leads ih

theorem PatchedNodes.noOpenEnd (patched : PatchedNodes exit nodes nodes') {k : ν}
    (closed : NoOpenEnd nodes k) : nodes' k = nodes k := by
  obtain ⟨tl, fields⟩ := patched.fields k
  have same : (nodes' k).tl = (nodes k).tl := by
    apply List.ext_getElem?
    intro i
    cases there : (nodes k).tl[i]? with
    | none =>
      rw [List.getElem?_eq_none_iff, patched.length, ← List.getElem?_eq_none_iff]
      exact there
    | some tn =>
      cases leads : tn.nextToken with
      | none => exact absurd leads (closed tn (List.mem_of_getElem? there))
      | some m => exact patched.kept there leads
  rw [fields] at same ⊢
  exact congrArg (fun tl => ({ nodes k with tl } : ParamNode ν κ)) same

theorem NoOpenEnd.patched {k : ν} (closed : NoOpenEnd nodes k)
    (patched : PatchedNodes exit nodes nodes') : NoOpenEnd nodes' k := by
  unfold NoOpenEnd
  rw [patched.noOpenEnd closed]
  exact closed

end

/-- What `setExit` does at one transition of a node. -/
def exitAt (exit : ν) (depth : ℕ) (n : ν) (nodes : ν → ParamNode ν κ) (i : ℕ) : ν → ParamNode ν κ :=
  match (nodes n).tl[i]? with
  | none => nodes
  | some tn =>
    match tn.nextToken with
    | none => Function.update nodes n { nodes n with tl := (nodes n).tl.set i (tn.exit exit) }
    | some m => setExit exit depth m nodes

theorem setExit_succ (exit : ν) (depth : ℕ) (n : ν) (nodes : ν → ParamNode ν κ) :
    setExit exit (depth + 1) n nodes =
      (List.range (nodes n).tl.length).foldl (exitAt exit depth n) nodes := rfl

theorem patched_update {exit n : ν} {nodes : ν → ParamNode ν κ} {i : ℕ} {tn : TransitionNode ν κ}
    (there : (nodes n).tl[i]? = some tn) (open_ : tn.nextToken = none) :
    PatchedNodes exit nodes (Function.update nodes n
      { nodes n with tl := (nodes n).tl.set i (tn.exit exit) }) := by
  refine ⟨fun k => ?_, fun k => ?_, fun k j u thereU => ?_⟩
  · rw [Function.update_apply]
    split_ifs with same
    · subst same
      exact ⟨_, rfl⟩
    · exact ⟨_, rfl⟩
  · rw [Function.update_apply]
    split_ifs with same
    · subst same
      exact List.length_set
    · rfl
  · rw [Function.update_apply]
    split_ifs with same
    · subst same
      by_cases here : i = j
      · subst here
        obtain rfl := Option.some.inj (there.symm.trans thereU)
        refine ⟨tn.exit exit, ?_, .inr ⟨open_, rfl⟩⟩
        rw [List.getElem?_set_self (List.getElem?_eq_some_iff.mp there).1]
      · refine ⟨u, ?_, .inl rfl⟩
        rw [List.getElem?_set_ne here]
        exact thereU
    · exact ⟨u, thereU, .inl rfl⟩

theorem exitAt_patched_of {exit : ν} {depth : ℕ}
    (down : ∀ m (nodes : ν → ParamNode ν κ), PatchedNodes exit nodes (setExit exit depth m nodes)) (n : ν)
    (nodes : ν → ParamNode ν κ) (i : ℕ) : PatchedNodes exit nodes (exitAt exit depth n nodes i) := by
  unfold exitAt
  split
  · exact .refl
  · next tn there =>
    split
    · next open_ => exact patched_update there open_
    · next m leads => exact down m nodes

theorem setExit_patched (exit : ν) (depth : ℕ) (n : ν) (nodes : ν → ParamNode ν κ) :
    PatchedNodes exit nodes (setExit exit depth n nodes) := by
  induction depth generalizing n nodes with
  | zero => exact .refl
  | succ depth ih =>
    rw [setExit_succ]
    apply List.foldlRecOn (motive := PatchedNodes exit nodes) _ _ .refl
    intro current patched i _
    exact patched.trans (exitAt_patched_of ih n current i)

theorem exitAt_patched (exit : ν) (depth : ℕ) (n : ν) (nodes : ν → ParamNode ν κ) (i : ℕ) :
    PatchedNodes exit nodes (exitAt exit depth n nodes i) :=
  exitAt_patched_of (setExit_patched exit depth) n nodes i

theorem exitAt_closes {exit n : ν} {depth i : ℕ} {nodes : ν → ParamNode ν κ}
    {tn : TransitionNode ν κ} (there : (exitAt exit depth n nodes i n).tl[i]? = some tn) :
    tn.nextToken ≠ none := by
  have bound : i < (nodes n).tl.length := by
    rw [← (exitAt_patched exit depth n nodes i).length n]
    exact (List.getElem?_eq_some_iff.mp there).1
  have before : (nodes n).tl[i]? = some (nodes n).tl[i] := List.getElem?_eq_getElem bound
  generalize (nodes n).tl[i] = u at before
  cases leads : u.nextToken with
  | none =>
    have set : exitAt exit depth n nodes i = Function.update nodes n
        { nodes n with tl := (nodes n).tl.set i (u.exit exit) } := by
      simp only [exitAt, before, leads]
    rw [set, Function.update_self, List.getElem?_set_self bound] at there
    rw [← Option.some.inj there]
    exact Option.some_ne_none exit
  | some m =>
    rw [(exitAt_patched exit depth n nodes i).kept before leads] at there
    rw [← Option.some.inj there, leads]
    exact Option.some_ne_none m

/-- The transitions of a node that were treated so far have no open end. -/
theorem exitAt_foldl (exit n : ν) (depth : ℕ) (nodes : ν → ParamNode ν κ) (j : ℕ) :
    PatchedNodes exit nodes ((List.range j).foldl (exitAt exit depth n) nodes) ∧
      ∀ i < j, ∀ tn, (((List.range j).foldl (exitAt exit depth n) nodes) n).tl[i]? = some tn →
        tn.nextToken ≠ none := by
  induction j with
  | zero => exact ⟨.refl, fun i low => absurd low (Nat.not_lt_zero i)⟩
  | succ j ih =>
    obtain ⟨patched, closed⟩ := ih
    rw [List.range_succ, List.foldl_append, List.foldl_cons, List.foldl_nil]
    generalize (List.range j).foldl (exitAt exit depth n) nodes = current at patched closed
    have last := exitAt_patched exit depth n current j
    refine ⟨patched.trans last, fun i low tn there => ?_⟩
    rcases Nat.lt_succ_iff_lt_or_eq.mp low with earlier | rfl
    · have bound : i < (current n).tl.length := by
        rw [← last.length n]
        exact (List.getElem?_eq_some_iff.mp there).1
      have before := List.getElem?_eq_getElem bound
      obtain ⟨m, leads⟩ := Option.ne_none_iff_exists'.mp (closed i earlier _ before)
      rw [last.kept before leads] at there
      rw [← Option.some.inj there, leads]
      exact Option.some_ne_none m
    · exact exitAt_closes there

/-- `setExit` sets the open ends of every node it can come to. -/
theorem setExit_closes {exit n k : ν} {d depth : ℕ} {nodes : ν → ParamNode ν κ}
    (way : Way nodes d n k) (deep : d < depth) : NoOpenEnd (setExit exit depth n nodes) k := by
  induction depth generalizing d n nodes with
  | zero => exact absurd deep (Nat.not_lt_zero d)
  | succ depth ih =>
    rw [setExit_succ]
    cases way with
    | here =>
      intro tn among
      obtain ⟨i, there⟩ := List.getElem?_of_mem among
      obtain ⟨patched, closed⟩ := exitAt_foldl exit k depth nodes (nodes k).tl.length
      refine closed i ?_ tn there
      rw [← patched.length k]
      exact (List.getElem?_eq_some_iff.mp there).1
    | @step d n m k tn among leads rest =>
      obtain ⟨i, there⟩ := List.getElem?_of_mem among
      have low : i + 1 ≤ (nodes n).tl.length := (List.getElem?_eq_some_iff.mp there).1
      -- the node is closed when its branch has been followed, and it stays so
      refine Nat.le_induction (m := i + 1)
        (P := fun j _ => NoOpenEnd ((List.range j).foldl (exitAt exit depth n) nodes) k) ?_ ?_ _ low
      · obtain ⟨patched, -⟩ := exitAt_foldl exit n depth nodes i
        rw [List.range_succ, List.foldl_append, List.foldl_cons, List.foldl_nil]
        generalize (List.range i).foldl (exitAt exit depth n) nodes = current at patched
        have followed : exitAt exit depth n current i = setExit exit depth m current := by
          simp only [exitAt, patched.kept there leads, leads]
        rw [followed]
        exact ih (patched.way rest) (Nat.lt_of_succ_lt_succ deep)
      · intro j _ closed
        rw [List.range_succ, List.foldl_append, List.foldl_cons, List.foldl_nil]
        exact closed.patched (exitAt_patched exit depth n _ j)

/-- A node whose only transition is an open end leads to the exit. -/
theorem setExit_leaf {exit n k : ν} {d depth : ℕ} {nodes : ν → ParamNode ν κ} {tn : TransitionNode ν κ}
    (way : Way nodes d n k) (deep : d < depth) (only : (nodes k).tl = [tn])
    (openEnd : tn.nextToken = none) :
    setExit exit depth n nodes k = { nodes k with tl := [tn.exit exit] } := by
  have patched := setExit_patched exit depth n nodes
  have closed : NoOpenEnd (setExit exit depth n nodes) k := setExit_closes way deep
  obtain ⟨tl, fields⟩ := patched.fields k
  obtain ⟨tn', there, changed⟩ := patched.transitions k 0 tn (by rw [only, List.getElem?_cons_zero])
  have length := patched.length k
  rw [only] at length
  obtain ⟨u, single⟩ := List.length_eq_one_iff.mp length
  rw [single, List.getElem?_cons_zero] at there
  obtain rfl := Option.some.inj there
  rcases changed with rfl | ⟨-, rfl⟩
  · exact absurd openEnd (closed u (single ▸ List.mem_singleton_self u))
  · rw [fields] at single ⊢
    exact congrArg (fun tl => { nodes k with tl }) single

end Ecryptfs
