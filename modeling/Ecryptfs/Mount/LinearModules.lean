import Ecryptfs.Graph.Runs
import Ecryptfs.Lib.Machine
import Ecryptfs.Mount.KeyModules

/-!
# Modules with a list of parameters

The chain of nodes that is built for the parameters of a key module collects their values in a list,
which becomes an array for the module.  A parameter without a value adds nothing to the list, and an
entry called `default` calls the functions of the chain once more, also the one that frees the list:
`handsAligned_iff` says when the array has the value of each parameter at its place.
-/

namespace Ecryptfs

variable {mods : List GraphModule} {env : MountEnv} {aliases : List CStr} {m : ℕ} {modAlias : CStr}
  {params : List KeyModParam} {w w' : MountWorld} {n : NodeId} {nvps : List NameValPair}

/-! ## Values -/

/-- The value that a parameter takes from the list or from its default, and the list behind it. -/
def takeValue (p : KeyModParam) (nvps : List NameValPair) : Option CStr × List NameValPair :=
  match takeEntry p.option nvps with
  | some (value, nvps') => (realValue value, nvps')
  | none => (p.defaultVal.filter (· ≠ lit "NULL"), nvps)

/-- The values of the parameters, in their order; those of one option take its entries one after the
other. -/
def parameterValues : List KeyModParam → List NameValPair → List (Option CStr)
  | [], _ => []
  | p :: ps, nvps => (takeValue p nvps).1 :: parameterValues ps (takeValue p nvps).2

/-- The list behind the parameters. -/
def listBehind : List KeyModParam → List NameValPair → List NameValPair
  | [], nvps => nvps
  | p :: ps, nvps => listBehind ps (takeValue p nvps).2

/-- How many entries of a list are called `default`. -/
def labels (nvps : List NameValPair) : ℕ := (nvps.map NameValPair.name).count (lit "default")

theorem takeValue_labels (p : KeyModParam) (nvps : List NameValPair) :
    labels (takeValue p nvps).2 = labels nvps := by
  unfold takeValue labels
  split
  · next taken => rw [(takeEntry_spec taken).1]
  · rfl

theorem listBehind_labels (params : List KeyModParam) (nvps : List NameValPair) :
    labels (listBehind params nvps) = labels nvps := by
  induction params generalizing nvps with
  | nil => rfl
  | cons p ps ih => rw [listBehind, ih, takeValue_labels]

theorem parameterValues_length (params : List KeyModParam) (nvps : List NameValPair) :
    (parameterValues params nvps).length = params.length := by
  induction params generalizing nvps with
  | nil => rfl
  | cons p ps ih => rw [parameterValues, List.length_cons, List.length_cons, ih]

theorem parameterValues_append (params params' : List KeyModParam) (nvps : List NameValPair) :
    parameterValues (params ++ params') nvps =
      parameterValues params nvps ++ parameterValues params' (listBehind params nvps) := by
  induction params generalizing nvps with
  | nil => rfl
  | cons p ps ih => rw [List.cons_append, parameterValues, parameterValues, listBehind, ih, List.cons_append]

/-- What `alloc_and_get_val` finds for a node with the option and the default of a parameter. -/
theorem retrieveVal_takeValue {node : MountNode} {p : KeyModParam} (options : node.mntOptNames = [p.option])
    (default_ : node.defaultVal = p.defaultVal) (open_ : node.val = none) :
    (retrieveVal node nvps).2.1.val = (takeValue p nvps).1 ∧
      (retrieveVal node nvps).2.2 = (takeValue p nvps).2 := by
  have only : (node.mntOptNames.reverse.findSome? fun name => takeEntry name nvps) =
      takeEntry p.option nvps := by
    rw [options]
    simp
  unfold retrieveVal takeValue
  rw [only, default_]
  rcases takeEntry p.option nvps with _ | ⟨value, nvps'⟩
  · rcases p.defaultVal with _ | d
    · exact ⟨open_, rfl⟩
    · by_cases null : d ≠ lit "NULL"
      · simp [null, Option.filter]
      · simp [null, open_, Option.filter]
  · refine ⟨?_, rfl⟩
    dsimp only
    unfold ParamNode.receive
    rcases realValue value with _ | v
    · exact open_
    · rfl

/-! ## Collecting -/

/-- Values are added to the list behind `foo`. -/
def collect (vals : List CStr) (w : MountWorld) : MountWorld :=
  { w with ext := { w.ext with foo := w.ext.foo.map fun ctx => { ctx with vals := ctx.vals ++ vals } } }

theorem collect_collect (a b : List CStr) (w : MountWorld) :
    collect b (collect a w) = collect (a ++ b) w := by
  unfold collect
  cases w.ext.foo <;> simp

theorem collect_nil (w : MountWorld) : collect [] w = w := by
  unfold collect
  cases h : w.ext.foo
  · simp [← h]
  · simp [← h]

theorem collect_live (vals : List CStr) (w : MountWorld) :
    (collect vals w).ext.foo.isSome = w.ext.foo.isSome :=
  Option.isSome_map

/-- `ecryptfs_linear_subgraph_val_tf` adds the value of its node, if there is one. -/
theorem linearSubgraphVal_collect (live : w.ext.foo.isSome) :
    linearSubgraphVal n w = .ok (0, collect (w.nodes n).val.toList w) := by
  obtain ⟨ctx, foo⟩ := Option.isSome_iff_exists.mp live
  unfold linearSubgraphVal
  rcases (w.nodes n).val with _ | v
  · exact congrArg (fun w => Except.ok ((0 : ℤ), w)) (collect_nil w).symm
  · rw [foo]
    unfold collect
    rw [foo]
    rfl

/-- The loop over the list adds a value once for each entry `default`. -/
theorem nvpLoop_collect {call : MountCallbacks} {f : Callback} {next : Option NodeId}
    (calls : ∀ nvps w, call f n nvps w = linearSubgraphVal n w) {es : List NameValPair}
    (only : (w.nodes n).tl = [defaultTransition next (some f)]) (live : w.ext.foo.isSome) :
    nvpLoop call nvps n 0 es w =
      .ok (.go (collect (List.replicate (labels es) (w.nodes n).val.toList).flatten w)) := by
  induction es generalizing w with
  | nil => exact congrArg (fun w => Except.ok (Flow.go w)) (collect_nil w).symm
  | cons e es ih =>
    have first : transition w n 0 = some (defaultTransition next (some f)) :=
      transition_only only
    rw [nvpLoop, first]
    dsimp only [defaultTransition]
    unfold labels
    rw [List.map_cons, List.count_cons]
    by_cases named : e.name = lit "default"
    · have selected : ¬ ((some (lit "default")).isSome ∧ some (lit "default") ≠ some e.name) :=
        fun both => both.2 (congrArg some named.symm)
      have again := ih (w := collect (w.nodes n).val.toList w) only ((collect_live _ _).trans live)
      rw [if_neg selected, transFunc, calls, linearSubgraphVal_collect live, named, beq_self_eq_true, if_pos rfl]
      dsimp only
      rw [if_neg (by decide), if_neg (by decide), again, collect_collect, List.replicate_succ,
        List.flatten_cons]
      rfl
    · have skipped : (some (lit "default")).isSome ∧ some (lit "default") ≠ some e.name :=
        ⟨rfl, fun same => named (Option.some.inj same).symm⟩
      rw [if_pos skipped, if_neg (by simpa using named), ih only live]
      rfl

/-- What is collected at a node with the value `v`: the value that calls the function by itself does so
once, any other one once for each entry `default` and once more. -/
def copies (times : ℕ) (v : Option CStr) : List CStr :=
  if v = some (lit "default") then v.toList else (List.replicate (times + 1) v.toList).flatten

/-- The transition from a node of a parameter. -/
theorem collect_transition {call : MountCallbacks} {f : Callback} {next : NodeId} {t : MountState}
    (calls : ∀ nvps w, call f n nvps w = linearSubgraphVal n w)
    (only : (w.nodes n).tl = [defaultTransition (some next) (some f)]) (live : w.ext.foo.isSome)
    (here : Standing t w nvps) : ∃ s', doTransition call n t = .ok (0, some next, s') ∧
      Standing s' (collect (copies (labels nvps) (w.nodes n).val) w) nvps := by
  obtain ⟨rfl, rfl, verbosity⟩ := here
  have followed : ∀ vals start, Followed call n t.nvps next (collect vals t.world)
      (collect (vals ++ (t.world.nodes n).val.toList) t.world) 0
      (defaultTransition (some next) (some f)) start 0 := by
    intro vals start
    refine ⟨?_, ?_, by decide, ?_⟩
    · exact transition_only only
    · change call f n t.nvps (collect vals t.world) = _
      rw [calls, linearSubgraphVal_collect ((collect_live _ _).trans live), collect_collect]
      rfl
    · exact nextToken_first only
  have first : transition t.world n 0 = some (defaultTransition (some next) (some f)) :=
    transition_only only
  refine ⟨{ t with
    world := collect (copies (labels t.nvps) (t.world.nodes n).val) t.world
    repeated := if t.lastnode = some n then t.repeated else 0
    lastnode := some n }, ?_, rfl, rfl, verbosity⟩
  unfold doTransition copies
  by_cases isDefault : (t.world.nodes n).val = some (lit "default")
  · have found : selectLoop call t.nvps n maxNumTransitions 0 t.world = .ok (.matched 0 t.world) :=
      selectLoop_found first rfl isDefault.symm (fun k low => absurd low (Nat.not_lt_zero k)) le_rfl
        (by decide)
    have once := followed [] 0
    rw [collect_nil, List.nil_append] at once
    unfold followMatch
    simp only [found, first, Option.bind_some, once.called, once.next, if_pos isDefault]
  · have passed : selectLoop call t.nvps n maxNumTransitions 0 t.world = .ok (.passed
        (collect (List.replicate (labels t.nvps) (t.world.nodes n).val.toList).flatten t.world)) := by
      have other : ¬ ((defaultTransition (some next) (some f)).val.isSome ∧
          (defaultTransition (some next) (some f)).val = (t.world.nodes n).val) :=
        fun both => isDefault both.2.symm
      rw [maxNumTransitions, selectLoop, first]
      simp only [if_neg other, nvpLoop_collect calls only live]
      rw [selectLoop]
      have none_ : transition (collect (List.replicate (labels t.nvps)
          (t.world.nodes n).val.toList).flatten t.world) n (0 + 1) = none := by
        change (t.world.nodes n).tl[1]? = _
        rw [only]
        rfl
      rw [none_]
    have looped := @defaultLoop_follow _ _ _ call n next maxNumTransitions 0 0 { t with
        world := collect (List.replicate (labels t.nvps) (t.world.nodes n).val.toList).flatten t.world
        repeated := if t.lastnode = some n then t.repeated else 0
        lastnode := some n } _ 0 _ rfl (fun k low => absurd low (Nat.not_lt_zero k)) le_rfl (by decide)
      (by decide) (followed _ nullTok)
    simp only [passed, looped, if_neg isDefault]
    rw [List.replicate_succ', List.flatten_append, List.flatten_singleton]

/-! ## The chain -/

/-- The node of a parameter, as number `k` of module `m`. -/
def parameterNode (m k : ℕ) (p : KeyModParam) : MountNode where
  mntOptNames := [p.option]
  defaultVal := p.defaultVal
  suggestedVal := p.suggestedVal
  flags := { echoInput := p.echoInput }
  tl := [defaultTransition (some (.mod m (k + 1))) (some (.mod m 1))]

theorem linearModule_parameter {k : ℕ} {p : KeyModParam} (there : params[k]? = some p) :
    (linearModule env aliases m modAlias params).nodes k = parameterNode m k p := by
  simp only [linearModule, there]
  rfl

/-- The name and the default of the node that leaves the subgraph. -/
def exitParam : KeyModParam := ⟨lit "linear_subgraph_exit_dummy_node", none, none, false⟩

/-- The node that leaves the subgraph of module `m` for `x`. -/
def leaveNode (m : ℕ) (x : NodeId) : MountNode where
  mntOptNames := [lit "linear_subgraph_exit_dummy_node"]
  flags := { noValue := true }
  tl := [defaultTransition (some x) (some (.mod m 2))]

theorem linear_calls (isLinear : mods[m]? = some (linearModule env aliases m modAlias params))
    (c : ℕ) (n : NodeId) (nvps : List NameValPair) (w : MountWorld) :
    mountCall (moduleCalls mods) (.mod m c) n nvps w =
      (linearModule env aliases m modAlias params).call c n nvps w := by
  unfold mountCall moduleCalls
  simp only [isLinear]

/-- The world in which a node has what `retrieve_val` finds for it. -/
def fetched (n : NodeId) (w : MountWorld) (nvps : List NameValPair) : MountWorld :=
  w.setNode n (retrieveVal (w.nodes n) nvps).2.1

/-- A node without a value that takes it from the option and the default of a parameter. -/
structure Awaits (p : KeyModParam) (node : MountNode) : Prop where
  options : node.mntOptNames = [p.option]
  default : node.defaultVal = p.defaultVal
  open_ : node.val = none
  explicit : node.flags.allowImplicitTransition = false
  stdin : node.flags.stdinRequired = false

theorem parameterNode_awaits (m k : ℕ) (p : KeyModParam) : Awaits p (parameterNode m k p) :=
  ⟨rfl, rfl, rfl, rfl, rfl⟩

theorem leaveNode_awaits (m : ℕ) (x : NodeId) : Awaits exitParam (leaveNode m x) :=
  ⟨rfl, rfl, rfl, rfl, rfl⟩

theorem fetched_allocs {p : KeyModParam} (awaits : Awaits p (w.nodes n)) :
    Allocs n w nvps (fetched n w nvps) (takeValue p nvps).2 := by
  have allocs := (@Gets.retrieved _ _ _ _ n w nvps awaits.open_ awaits.explicit awaits.stdin).allocs
  rwa [(retrieveVal_takeValue awaits.options awaits.default awaits.open_).2] at allocs

theorem fetched_val {p : KeyModParam} (awaits : Awaits p (w.nodes n)) :
    ((fetched n w nvps).nodes n).val = (takeValue p nvps).1 := by
  rw [fetched, w.nodes_setNode_self]
  exact (retrieveVal_takeValue awaits.options awaits.default awaits.open_).1

theorem fetched_tl : ((fetched n w nvps).nodes n).tl = (w.nodes n).tl := by
  obtain ⟨v, set, fields⟩ := (retrieveVal_spec (w.nodes n) nvps).fields
  rw [fetched, w.nodes_setNode_self, fields]

/-- The turn of a parameter. -/
theorem parameter_goes (isLinear : mods[m]? = some (linearModule env aliases m modAlias params))
    {k : ℕ} {p : KeyModParam} (node : w.nodes (.mod m k) = parameterNode m k p)
    (live : w.ext.foo.isSome) : Goes (mountCall (moduleCalls mods)) (.mod m k) w nvps (.mod m (k + 1))
      (collect (copies (labels nvps) (takeValue p nvps).1) (fetched (.mod m k) w nvps))
      (takeValue p nvps).2 := by
  have awaits : Awaits p (w.nodes (.mod m k)) := node ▸ parameterNode_awaits m k p
  refine goes_of_transition (fetched_allocs awaits) fun t here => ?_
  have only : ((fetched (.mod m k) w nvps).nodes (.mod m k)).tl =
      [defaultTransition (some (.mod m (k + 1))) (some (.mod m 1))] := by
    rw [fetched_tl, node]
    rfl
  have transitions := collect_transition (linear_calls isLinear 1 (.mod m k)) only live here
  rwa [takeValue_labels, fetched_val awaits] at transitions

/-- The values that the nodes of the parameters collect. -/
def collected (params : List KeyModParam) (nvps : List NameValPair) : List CStr :=
  (parameterValues params nvps).flatMap (copies (labels nvps))

theorem collected_cons (p : KeyModParam) (ps : List KeyModParam) (nvps : List NameValPair) :
    collected (p :: ps) nvps =
      copies (labels nvps) (takeValue p nvps).1 ++ collected ps (takeValue p nvps).2 := by
  rw [collected, parameterValues, List.flatMap_cons, collected, takeValue_labels]

/-- **The turns of the parameters.**  By induction over the parameters that are left, the walk comes to
the node behind them with all their values. -/
theorem parameters_run (isLinear : mods[m]? = some (linearModule env aliases m modAlias params))
    {rest : List KeyModParam} {k : ℕ} {s : MountState}
    (nodes : ∀ i p, rest[i]? = some p → w.nodes (.mod m (k + i)) = parameterNode m (k + i) p)
    (live : w.ext.foo.isSome) (here : Standing s w nvps) :
    ∃ t w', Machine.after (evalStep (mountCall (moduleCalls mods))) rest.length (.at (.mod m k) s) =
        some (.at (.mod m (k + rest.length)) t) ∧ Standing t w' (listBehind rest nvps) ∧
      w'.ext = (collect (collected rest nvps) w).ext ∧
      ∀ j, k + rest.length ≤ j → w'.nodes (.mod m j) = w.nodes (.mod m j) := by
  induction rest generalizing k s w nvps with
  | nil =>
    refine ⟨s, w, rfl, here, ?_, fun _ _ => rfl⟩
    exact (congrArg World.ext (collect_nil w)).symm
  | cons p rest ih =>
    have node : w.nodes (.mod m k) = parameterNode m k p := nodes 0 p rfl
    obtain ⟨u, stepped, there⟩ := parameter_goes isLinear node live s here
    have others : ∀ j, k < j → (collect (copies (labels nvps) (takeValue p nvps).1)
        (fetched (.mod m k) w nvps)).nodes (.mod m j) = w.nodes (.mod m j) := by
      intro j later
      exact w.nodes_setNode_of_ne _ (fun same => by cases same; omega)
    have live' : (collect (copies (labels nvps) (takeValue p nvps).1)
        (fetched (.mod m k) w nvps)).ext.foo.isSome := (collect_live _ _).trans live
    have left : ∀ i q, rest[i]? = some q → (collect (copies (labels nvps) (takeValue p nvps).1)
        (fetched (.mod m k) w nvps)).nodes (.mod m (k + 1 + i)) = parameterNode m (k + 1 + i) q := by
      intro i q at_
      rw [others _ (by omega), Nat.add_assoc, Nat.add_comm 1 i]
      exact nodes (i + 1) q at_
    obtain ⟨t, w', reached, behind, ext, same⟩ := ih left live' there
    refine ⟨t, w', ?_, behind, ?_, fun j later => ?_⟩
    · rw [List.length_cons, Machine.after, stepped, Option.bind_some, reached]
      congr 3
      omega
    · rw [ext, collect_collect, ← collected_cons]
      rfl
    · rw [same j (by rw [List.length_cons] at later; omega), others j (by
        rw [List.length_cons] at later
        omega)]

/-! ## The way out -/

theorem labels_eq_zero : labels nvps = 0 ↔ ¬ Named (lit "default") nvps := by
  exact List.count_eq_zero

/-- What `ecryptfs_exit_linear_subgraph_tf` leaves behind: the array of the module, and no list. -/
structure HandsOver (ctx : SubgraphCtx) (rc : ℤ) (w w' : MountWorld) : Prop where
  code : rc ≤ 0
  nodes : w'.nodes = w.nodes
  freed : w'.ext.foo = none
  array : w'.ext.paramVals = Function.update w.ext.paramVals ctx.keyMod ctx.vals

theorem exitLinearSubgraph_handsOver {ctx : SubgraphCtx} (held : w.ext.foo = some ctx) :
    ∃ rc w', exitLinearSubgraph env n w = .ok (rc, w') ∧ HandsOver ctx rc w w' := by
  unfold exitLinearSubgraph
  rw [held]
  dsimp only
  split_ifs with empty failed
  · exact ⟨0, _, rfl, le_rfl, rfl, rfl, rfl⟩
  · exact ⟨_, _, rfl, failed.le, rfl, rfl, rfl⟩
  · exact ⟨0, _, rfl, le_rfl, rfl, rfl, rfl⟩

theorem exitLinearSubgraph_freed (freed : w.ext.foo = none) :
    exitLinearSubgraph env n w = .error .fault := by
  unfold exitLinearSubgraph
  rw [freed]

variable {call : MountCallbacks} {f : Callback} {x : NodeId} {rc : ℤ} {stop : Stop} {t : MountState}

/-- A node whose only transition is a default one, with a function that ends without a positive code,
calls the function once if no entry is called `default` or if that is its value. -/
theorem leave_once (only : (w.nodes n).tl = [defaultTransition (some x) (some f)])
    (once : ¬ Named (lit "default") nvps ∨ (w.nodes n).val = some (lit "default"))
    (called : call f n nvps w = .ok (rc, w')) (code : rc ≤ 0) (nodes : w'.nodes = w.nodes)
    (here : Standing t w nvps) : ∃ next s', doTransition call n t = .ok (rc, next, s') ∧
      s'.world = w' ∧ (rc = 0 → next = some x) := by
  obtain ⟨rfl, rfl, verbosity⟩ := here
  have first : transition t.world n 0 = some (defaultTransition (some x) (some f)) :=
    transition_only only
  have next : nextToken w' n 0 = some x := nextToken_first (by rw [nodes, only])
  have start : ∀ k < 0, ∀ u, transition t.world n k = some u → u.val ≠ some (lit "default") :=
    fun k low => absurd low (Nat.not_lt_zero k)
  suffices turned : ∃ next, doTransition call n t = .ok (rc, next, { t with
      world := w'
      repeated := if t.lastnode = some n then t.repeated else 0
      lastnode := some n }) ∧ (rc = 0 → next = some x) by
    obtain ⟨next, turned, leads⟩ := turned
    exact ⟨next, _, turned, rfl, leads⟩
  by_cases isDefault : (t.world.nodes n).val = some (lit "default")
  · have found : selectLoop call t.nvps n maxNumTransitions 0 t.world = .ok (.matched 0 t.world) :=
      selectLoop_found first rfl isDefault.symm (fun k low => absurd low (Nat.not_lt_zero k)) le_rfl
        (by decide)
    have called' : transFunc call 0 (defaultTransition (some x) (some f)).transFunc n t.nvps t.world =
        .ok (rc, w') := called
    refine ⟨some x, ?_, fun _ => rfl⟩
    unfold doTransition followMatch
    simp only [found, first, Option.bind_some, called', next]
  · have passed : selectLoop call t.nvps n maxNumTransitions 0 t.world = .ok (.passed t.world) := by
      refine selectLoop_unnamed fun tn among => ?_
      rw [only] at among
      obtain rfl := List.mem_singleton.mp among
      exact ⟨⟨lit "default", rfl, once.resolve_right isDefault⟩, fun same => isDefault same.symm⟩
    rcases code.lt_or_eq with failed | rfl
    · have looped := @defaultLoop_halt _ _ _ call n maxNumTransitions 0 0 { t with
          repeated := if t.lastnode = some n then t.repeated else 0
          lastnode := some n } w' rc _ first rfl start le_rfl (by decide) (.failed failed called)
      refine ⟨none, ?_, fun zero => absurd zero failed.ne⟩
      unfold doTransition
      simp only [passed, looped]
    · have looped := @defaultLoop_follow _ _ _ call n x maxNumTransitions 0 0 { t with
          repeated := if t.lastnode = some n then t.repeated else 0
          lastnode := some n } w' 0 _ rfl start le_rfl (by decide) (by decide)
          ⟨first, called, by decide, next⟩
      refine ⟨some x, ?_, fun _ => rfl⟩
      unfold doTransition
      simp only [passed, looped]

theorem labels_cons (e : NameValPair) (es : List NameValPair) :
    labels (e :: es) = labels es + if e.name = lit "default" then 1 else 0 := by
  simp [labels, List.count_cons]

/-- Where the function of the node stops, the loop over the list stops at the first entry `default`. -/
theorem nvpLoop_stops {es : List NameValPair}
    (only : (w.nodes n).tl = [defaultTransition (some x) (some f)])
    (stops : call f n nvps w = .error stop) (named : labels es ≠ 0) :
    nvpLoop call nvps n 0 es w = .error stop := by
  have first : transition w n 0 = some (defaultTransition (some x) (some f)) :=
    transition_only only
  induction es with
  | nil => exact absurd rfl named
  | cons e es ih =>
    rw [nvpLoop, first]
    dsimp only [defaultTransition]
    by_cases label : e.name = lit "default"
    · rw [if_neg (fun both => both.2 (congrArg some label.symm)), transFunc, stops]
    · rw [labels_cons, if_neg label] at named
      rw [if_pos ⟨rfl, fun same => label (Option.some.inj same).symm⟩]
      exact ih named

/-- A function that can be called only once makes the loop over the list stop at the second entry
`default`. -/
theorem nvpLoop_once {es : List NameValPair}
    (only : (w.nodes n).tl = [defaultTransition (some x) (some f)])
    (called : call f n nvps w = .ok (rc, w')) (code : rc ≤ 0) (nodes : w'.nodes = w.nodes)
    (again : call f n nvps w' = .error stop) (named : labels es ≠ 0) :
    nvpLoop call nvps n 0 es w = .ok (.go w') ∨ nvpLoop call nvps n 0 es w = .error stop := by
  have first : transition w n 0 = some (defaultTransition (some x) (some f)) :=
    transition_only only
  induction es with
  | nil => exact absurd rfl named
  | cons e es ih =>
    rw [nvpLoop, first]
    dsimp only [defaultTransition]
    by_cases label : e.name = lit "default"
    · have noError : rc ≠ mountError := (code.trans_lt (by decide)).ne
      have noToken : ¬ (rc = defaultTok ∨ rc = nullTok) := by
        rintro (rfl | rfl)
        · exact absurd code (by decide)
        · exact absurd code (by decide)
      rw [if_neg (fun both => both.2 (congrArg some label.symm)), transFunc, called]
      simp only [if_neg noError, if_neg noToken]
      by_cases rest : labels es = 0
      · have there : transition w' n 0 = some (defaultTransition (some x) (some f)) :=
          transition_only (by rw [nodes, only])
        exact .inl (nvpLoop_unnamed there ⟨lit "default", rfl, labels_eq_zero.mp rest⟩)
      · exact .inr (nvpLoop_stops (by rw [nodes, only]) again rest)
    · rw [labels_cons, if_neg label] at named
      rw [if_pos ⟨rfl, fun same => label (Option.some.inj same).symm⟩]
      exact ih named

/-- With an entry called `default`, a function that can be called only once makes the turn stop, unless
the value of the node is `default`. -/
theorem leave_twice (only : (w.nodes n).tl = [defaultTransition (some x) (some f)])
    (named : Named (lit "default") nvps) (other : (w.nodes n).val ≠ some (lit "default"))
    (called : call f n nvps w = .ok (rc, w')) (code : rc ≤ 0) (nodes : w'.nodes = w.nodes)
    (again : call f n nvps w' = .error stop) (here : Standing t w nvps) :
    doTransition call n t = .error stop := by
  obtain ⟨rfl, rfl, verbosity⟩ := here
  have first : transition t.world n 0 = some (defaultTransition (some x) (some f)) :=
    transition_only only
  have same : ∀ i, transition w' n i = transition t.world n i := by
    intro i
    rw [transition, nodes, ← transition]
  have noMatch : ¬ ((defaultTransition (some x) (some f)).val.isSome ∧
      (defaultTransition (some x) (some f)).val = (t.world.nodes n).val) :=
    fun both => other both.2.symm
  have end_ : transition t.world n (0 + 1) = none := by
    rw [transition, only]
    rfl
  have labelled : labels t.nvps ≠ 0 := fun none_ => labels_eq_zero.mp none_ named
  rcases nvpLoop_once only called code nodes again labelled with went | stopped
  · have passed : selectLoop call t.nvps n maxNumTransitions 0 t.world = .ok (.passed w') := by
      rw [maxNumTransitions, selectLoop, first]
      simp only [if_neg noMatch, went]
      rw [selectLoop, same, end_]
    have stops : transFunc call nullTok (defaultTransition (some x) (some f)).transFunc n t.nvps w' =
        .error stop := again
    -- the function is called once more when the default transition is followed
    have looped : defaultLoop call { t with
        world := w'
        repeated := if t.lastnode = some n then t.repeated else 0
        lastnode := some n } n maxNumTransitions 0 = .error stop := by
      rw [maxNumTransitions, defaultLoop]
      simp only [same, first, stops]
      rfl
    unfold doTransition
    simp only [passed, looped]
  · have stops : selectLoop call t.nvps n maxNumTransitions 0 t.world = .error stop := by
      rw [maxNumTransitions, selectLoop, first]
      simp only [if_neg noMatch, stopped]
    unfold doTransition
    simp only [stops]

/-- The evaluation stands behind node `n`: at `x`, or returned from `n`. -/
def Passed (n x : NodeId) (c : Config NodeId Callback MountExt) (t : MountState) : Prop :=
  c = .at x t ∨ ∃ rc, c = .done rc n t

theorem takeValue_named (p : KeyModParam) (nvps : List NameValPair) :
    Named (lit "default") (takeValue p nvps).2 ↔ Named (lit "default") nvps := by
  rw [← not_iff_not, ← labels_eq_zero, ← labels_eq_zero, takeValue_labels]

theorem fetched_leave {k : ℕ} (node : w.nodes (.mod m k) = leaveNode m x) :
    ((fetched (.mod m k) w nvps).nodes (.mod m k)).tl =
      [defaultTransition (some x) (some (.mod m 2))] := by
  rw [fetched_tl, node]
  rfl

/-- How the turn out of the subgraph begins: the node gets its value, and its function can be called. -/
theorem leave_begins (isLinear : mods[m]? = some (linearModule env aliases m modAlias params))
    {k : ℕ} {ctx : SubgraphCtx} {s : MountState} (node : w.nodes (.mod m k) = leaveNode m x)
    (held : w.ext.foo = some ctx) (here : Standing s w nvps) :
    ∃ t rc w', allocAndGetVal (.mod m k) s = .ok (0, t) ∧
      Standing t (fetched (.mod m k) w nvps) (takeValue exitParam nvps).2 ∧
      ((fetched (.mod m k) w nvps).nodes (.mod m k)).val = (takeValue exitParam nvps).1 ∧
      mountCall (moduleCalls mods) (.mod m 2) (.mod m k) (takeValue exitParam nvps).2
        (fetched (.mod m k) w nvps) = .ok (rc, w') ∧
      HandsOver ctx rc (fetched (.mod m k) w nvps) w' := by
  have awaits : Awaits exitParam (w.nodes (.mod m k)) := node ▸ leaveNode_awaits m x
  obtain ⟨t, allocated, there⟩ := fetched_allocs awaits s here
  obtain ⟨rc, w', left, hands⟩ := @exitLinearSubgraph_handsOver env (fetched (.mod m k) w nvps)
    (.mod m k) ctx held
  have called := (linear_calls isLinear 2 (.mod m k) (takeValue exitParam nvps).2 _).trans left
  exact ⟨t, rc, w', allocated, there, fetched_val awaits, called, hands⟩

/-- The turn out of the subgraph, when the list is freed only once. -/
theorem leave_passes (isLinear : mods[m]? = some (linearModule env aliases m modAlias params))
    {k : ℕ} {ctx : SubgraphCtx} {s : MountState} (node : w.nodes (.mod m k) = leaveNode m x)
    (held : w.ext.foo = some ctx) (here : Standing s w nvps)
    (once : Named (lit "default") nvps → (takeValue exitParam nvps).1 = some (lit "default")) :
    ∃ c t, evalStep (mountCall (moduleCalls mods)) (.at (.mod m k) s) = some c ∧
      Passed (.mod m k) x c t ∧
      t.world.ext.paramVals = Function.update w.ext.paramVals ctx.keyMod ctx.vals := by
  obtain ⟨t, rc, w', allocated, there, val, called, hands⟩ := leave_begins isLinear node held here
  have once' : ¬ Named (lit "default") (takeValue exitParam nvps).2 ∨
      ((fetched (.mod m k) w nvps).nodes (.mod m k)).val = some (lit "default") := by
    rw [takeValue_named, val]
    exact not_or_of_imp once
  obtain ⟨next, s', transitioned, world, leads⟩ :=
    leave_once (fetched_leave node) once' called hands.code hands.nodes there
  have array : s'.world.ext.paramVals = Function.update w.ext.paramVals ctx.keyMod ctx.vals := by
    rw [world, hands.array]
    rfl
  by_cases success : rc = 0
  · refine ⟨.at x s', s', ?_, .inl rfl, array⟩
    rw [evalStep, allocated]
    simp only [ne_eq, not_true_eq_false, if_false, transitioned, success, leads success]
  · refine ⟨.done rc (.mod m k) s', s', ?_, .inr ⟨rc, rfl⟩, array⟩
    rw [evalStep, allocated]
    simp only [ne_eq, not_true_eq_false, if_false, transitioned, success, not_false_eq_true, if_true]

/-- The turn out of the subgraph, when the freed list is used again. -/
theorem leave_faults (isLinear : mods[m]? = some (linearModule env aliases m modAlias params))
    {k : ℕ} {ctx : SubgraphCtx} {s : MountState} (node : w.nodes (.mod m k) = leaveNode m x)
    (held : w.ext.foo = some ctx) (here : Standing s w nvps) (named : Named (lit "default") nvps)
    (other : (takeValue exitParam nvps).1 ≠ some (lit "default")) :
    evalStep (mountCall (moduleCalls mods)) (.at (.mod m k) s) = some (.stopped .fault) := by
  obtain ⟨t, rc, w', allocated, there, val, called, hands⟩ := leave_begins isLinear node held here
  have again : mountCall (moduleCalls mods) (.mod m 2) (.mod m k) (takeValue exitParam nvps).2 w' =
      .error .fault := by
    rw [linear_calls isLinear]
    exact exitLinearSubgraph_freed (n := .mod m k) hands.freed
  have stopped := leave_twice (fetched_leave node) ((takeValue_named _ _).mpr named)
    (by rwa [val]) called hands.code hands.nodes again there
  rw [evalStep, allocated]
  simp only [ne_eq, not_true_eq_false, if_false, stopped]

/-! ## The array -/

theorem copies_length {k : ℕ} {v : Option CStr} (given : v.isSome) :
    (copies k v).length = if v = some (lit "default") then 1 else k + 1 := by
  obtain ⟨value, rfl⟩ := Option.isSome_iff_exists.mp given
  unfold copies
  split_ifs
  · rfl
  · simp

/-- Every value is collected at least once, and if there are no more of them than parameters, none is
collected again. -/
theorem copies_total {k : ℕ} {vs : List (Option CStr)} (given : ∀ v ∈ vs, v.isSome) :
    vs.length ≤ (vs.flatMap (copies k)).length ∧ ((vs.flatMap (copies k)).length = vs.length →
      ∀ v ∈ vs, k ≠ 0 → v = some (lit "default")) := by
  induction vs with
  | nil => exact ⟨le_rfl, fun _ v none_ => by cases none_⟩
  | cons v vs ih =>
    obtain ⟨enough, single⟩ := ih fun u among => given u (.tail _ among)
    have here := @copies_length k v (given v List.mem_cons_self)
    have least : 1 ≤ (copies k v).length := by
      rw [here]
      split_ifs <;> omega
    rw [List.flatMap_cons, List.length_append, List.length_cons]
    refine ⟨by omega, fun same u among many => ?_⟩
    rcases List.mem_cons.mp among with rfl | among
    · by_contra other
      rw [if_neg other] at here
      omega
    · exact single (by omega) u among many

/-- The values that are collected are those of all parameters, in their order, if there is one for each
parameter and none is collected again. -/
theorem copies_aligned {k : ℕ} {vs : List (Option CStr)} :
    (vs.flatMap (copies k)).map some = vs ↔
      ∀ v ∈ vs, v.isSome ∧ (k ≠ 0 → v = some (lit "default")) := by
  constructor
  · intro aligned v among
    have given : ∀ v ∈ vs, v.isSome := by
      intro v among
      rw [← aligned] at among
      obtain ⟨value, -, rfl⟩ := List.mem_map.mp among
      rfl
    have length := congrArg List.length aligned
    rw [List.length_map] at length
    exact ⟨given v among, (copies_total given).2 length v among⟩
  · intro each
    induction vs with
    | nil => rfl
    | cons v vs ih =>
      obtain ⟨given, once⟩ := each v List.mem_cons_self
      obtain ⟨value, rfl⟩ := Option.isSome_iff_exists.mp given
      have single : copies k (some value) = [value] := by
        by_cases isDefault : some value = some (lit "default")
        · exact if_pos isDefault
        · rw [copies, if_neg isDefault, not_not.mp fun many => isDefault (once many)]
          rfl
      rw [List.flatMap_cons, single, List.map_append, ih fun u among => each u (.tail _ among)]
      rfl

/-! ## The subgraph -/

/-- The subgraph of a module as it is built, with its exit set to `x`, when it is entered for the first
time. -/
structure Entering (env : MountEnv) (aliases : List CStr) (mods : List GraphModule) (m : ℕ)
    (modAlias : CStr) (params : List KeyModParam) (x : NodeId) (s : MountState) : Prop where
  module : mods[m]? = some (linearModule env aliases m modAlias params)
  verbosity : s.verbosity = 0
  chain : ∀ k < params.length,
    s.node (.mod m k) = (linearModule env aliases m modAlias params).nodes k
  leave : s.node (.mod m params.length) =
    { (linearModule env aliases m modAlias params).nodes params.length with
      tl := [defaultTransition (some x) (some (.mod m 2))] }
  fresh : s.world.ext.paramVals m = []

/-- The walk through the subgraph of a module, from the call of `ecryptfs_enter_linear_subgraph_tf` on,
comes to its end, and the array of the module then has the value of each parameter at its place. -/
def HandsAligned (aliases : List CStr) (mods : List GraphModule) (m : ℕ) (params : List KeyModParam)
    (x : NodeId) (s : MountState) : Prop :=
  ∃ w c t, enterLinearSubgraph aliases .select s.world = .ok (0, w) ∧
    Machine.after (evalStep (mountCall (moduleCalls mods))) (params.length + 1)
      (.at (.mod m 0) { s with world := w }) = some c ∧
    Passed (.mod m params.length) x c t ∧
    (t.world.ext.paramVals m).map some = parameterValues params s.nvps

theorem Entering.leaveNode {s : MountState}
    (entering : Entering env aliases mods m modAlias params x s) :
    s.node (.mod m params.length) = leaveNode m x := by
  rw [entering.leave]
  simp only [linearModule, List.getElem?_length, if_true]
  rfl

/-- The walk as far as the node behind the parameters, for the module that the alias stands for. -/
theorem Entering.run {s : MountState} (entering : Entering env aliases mods m modAlias params x s)
    (w : MountWorld) (nodes : w.nodes = s.world.nodes) (live : w.ext.foo.isSome) : ∃ t w',
    Machine.after (evalStep (mountCall (moduleCalls mods))) params.length
      (.at (.mod m 0) { s with world := w }) = some (.at (.mod m params.length) t) ∧
    Standing t w' (listBehind params s.nvps) ∧ w'.nodes (.mod m params.length) = Ecryptfs.leaveNode m x ∧
    w'.ext = (collect (collected params s.nvps) w).ext := by
  have chain : ∀ i p, params[i]? = some p → w.nodes (.mod m (0 + i)) = parameterNode m (0 + i) p := by
    intro i p there
    have low : i < params.length := (List.getElem?_eq_some_iff.mp there).1
    rw [Nat.zero_add, nodes, ← linearModule_parameter there]
    exact entering.chain i low
  obtain ⟨t, w', reached, behind, ext, same⟩ := parameters_run entering.module (s := { s with world := w })
    chain live ⟨rfl, rfl, entering.verbosity⟩
  rw [Nat.zero_add] at reached
  refine ⟨t, w', reached, behind, ?_, ext⟩
  rw [same _ (Nat.zero_add _).le, nodes]
  exact entering.leaveNode

/-- The world that `ecryptfs_enter_linear_subgraph_tf` leaves behind when it has found a module. -/
def entered (found : ℕ) (w : MountWorld) : MountWorld :=
  { w with ext := { w.ext with foo := some ⟨found, []⟩ } }

theorem enterLinearSubgraph_ok : enterLinearSubgraph aliases n w = .ok (0, w') ↔
    ∃ found, (w.nodes n).val.bind (findModule aliases) = some found ∧
      w' = entered found w := by
  unfold enterLinearSubgraph entered
  rcases (w.nodes n).val with _ | v
  · simp
  · dsimp only [Option.bind_some]
    rcases findModule aliases v with _ | found
    · simp
    · simp [eq_comm]

theorem Passed.unique {c : Config NodeId Callback MountExt} {t' : MountState} (passed : Passed n x c t)
    (passed' : Passed n x c t') : t = t' := by
  rcases passed with rfl | ⟨rc, rfl⟩
  · rcases passed' with same | ⟨rc, same⟩
    · exact (Config.at.inj same).2
    · cases same
  · rcases passed' with same | ⟨rc', same⟩
    · cases same
    · exact (Config.done.inj same).2.2

/-- The list is freed only once. -/
def FreedOnce (nvps : List NameValPair) : Prop :=
  Named (lit "default") nvps → (takeValue exitParam nvps).1 = some (lit "default")

/-- No parameter has its value collected again, and the list is freed only once. -/
def CalledOnce (params : List KeyModParam) (nvps : List NameValPair) : Prop :=
  Named (lit "default") nvps → ∀ v ∈ parameterValues (params ++ [exitParam]) nvps,
    v = some (lit "default")

instance (params : List KeyModParam) (nvps : List NameValPair) : Decidable (CalledOnce params nvps) :=
  inferInstanceAs (Decidable (lit "default" ∈ nvps.map NameValPair.name →
    ∀ v ∈ parameterValues (params ++ [exitParam]) nvps, v = some (lit "default")))

instance (nvps : List NameValPair) : Decidable (FreedOnce nvps) :=
  inferInstanceAs (Decidable (lit "default" ∈ nvps.map NameValPair.name →
    (takeValue exitParam nvps).1 = some (lit "default")))

theorem calledOnce_iff : CalledOnce params nvps ↔
    (Named (lit "default") nvps → ∀ v ∈ parameterValues params nvps, v = some (lit "default")) ∧
    FreedOnce (listBehind params nvps) := by
  have sameNames : Named (lit "default") (listBehind params nvps) ↔ Named (lit "default") nvps := by
    rw [← not_iff_not, ← labels_eq_zero, ← labels_eq_zero, listBehind_labels]
  rw [CalledOnce, FreedOnce, parameterValues_append, sameNames, ← imp_and, List.forall_mem_append]
  simp only [parameterValues, List.forall_mem_singleton]

/-- The walk through the subgraph gives what was collected to the module that was found. -/
theorem Entering.passes {s : MountState} (entering : Entering env aliases mods m modAlias params x s)
    (found : ℕ) (once : FreedOnce (listBehind params s.nvps)) : ∃ c t,
    Machine.after (evalStep (mountCall (moduleCalls mods))) (params.length + 1)
      (.at (.mod m 0) { s with world := entered found s.world }) = some c ∧
    Passed (.mod m params.length) x c t ∧ t.world.ext.paramVals =
      Function.update s.world.ext.paramVals found (collected params s.nvps) := by
  obtain ⟨u, w', reached, behind, node, ext⟩ := entering.run (entered found s.world) rfl rfl
  have held : w'.ext.foo = some ⟨found, collected params s.nvps⟩ := by
    rw [ext]
    rfl
  obtain ⟨c, t, stepped, passed, array⟩ := leave_passes entering.module node held behind once
  refine ⟨c, t, ?_, passed, ?_⟩
  · rw [Machine.after_add, reached, Option.bind_some, Machine.after_one, stepped]
  · rw [array, ext]
    rfl

/-- The walk through the subgraph uses the freed list. -/
theorem Entering.faults {s : MountState} (entering : Entering env aliases mods m modAlias params x s)
    (found : ℕ) (twice : ¬ FreedOnce (listBehind params s.nvps)) :
    Machine.after (evalStep (mountCall (moduleCalls mods))) (params.length + 1)
      (.at (.mod m 0) { s with world := entered found s.world }) = some (.stopped .fault) := by
  obtain ⟨u, w', reached, behind, node, ext⟩ := entering.run (entered found s.world) rfl rfl
  have held : w'.ext.foo = some ⟨found, collected params s.nvps⟩ := by
    rw [ext]
    rfl
  obtain ⟨named, other⟩ := Classical.not_imp.mp twice
  rw [Machine.after_add, reached, Option.bind_some, Machine.after_one]
  exact leave_faults entering.module node held behind named other

/-- What a walk that hands over an aligned array comes to. -/
theorem Entering.handsAligned {s : MountState}
    (entering : Entering env aliases mods m modAlias params x s) :
    HandsAligned aliases mods m params x s ↔
      ∃ found, (s.node .select).val.bind (findModule aliases) = some found ∧
        FreedOnce (listBehind params s.nvps) ∧
        (Function.update s.world.ext.paramVals found (collected params s.nvps) m).map some =
          parameterValues params s.nvps := by
  constructor
  · rintro ⟨w, c, t, called, reached, passed, aligned⟩
    obtain ⟨found, isFound, rfl⟩ := enterLinearSubgraph_ok.mp called
    by_cases once : FreedOnce (listBehind params s.nvps)
    · obtain ⟨c', t', reached', passed', array⟩ := entering.passes found once
      obtain rfl := Option.some.inj (reached'.symm.trans reached)
      obtain rfl := passed'.unique passed
      rw [array] at aligned
      exact ⟨found, isFound, once, aligned⟩
    · have fault := (entering.faults found once).symm.trans reached
      obtain rfl := Option.some.inj fault
      rcases passed with same | ⟨rc, same⟩ <;> cases same
  · rintro ⟨found, isFound, once, aligned⟩
    obtain ⟨c, t, reached, passed, array⟩ := entering.passes found once
    refine ⟨entered found s.world, c, t, enterLinearSubgraph_ok.mpr ⟨found, isFound, rfl⟩, reached,
      passed, ?_⟩
    rw [array]
    exact aligned

theorem collected_aligned : (collected params nvps).map some = parameterValues params nvps ↔
    (∀ v ∈ parameterValues params nvps, v.isSome) ∧ (Named (lit "default") nvps →
      ∀ v ∈ parameterValues params nvps, v = some (lit "default")) := by
  have labelled : labels nvps ≠ 0 ↔ Named (lit "default") nvps := by
    rw [Ne, labels_eq_zero, not_not]
  rw [collected, copies_aligned, labelled]
  constructor
  · exact fun each => ⟨fun v among => (each v among).1, fun named v among => (each v among).2 named⟩
  · exact fun both v among => ⟨both.1 v among, fun named => both.2 named v among⟩

/-! ### In the mount graph -/

theorem startNodes_linear (isLinear : mods[m]? = some (linearModule env aliases m modAlias params))
    (k : ℕ) : startNodes mods (.mod m k) = (linearModule env aliases m modAlias params).nodes k := by
  simp only [startNodes, isLinear]

/-- The way along the parameters. -/
theorem linear_way (isLinear : mods[m]? = some (linearModule env aliases m modAlias params)) {d k : ℕ}
    (left : k + d = params.length) :
    Way (startNodes mods) d (.mod m k) (.mod m params.length) := by
  induction d generalizing k with
  | zero => exact left ▸ .here _
  | succ d ih =>
    have low : k < params.length := by omega
    refine .step (defaultTransition (some (.mod m (k + 1))) (some (.mod m 1))) ?_ rfl (ih (by omega))
    rw [startNodes_linear isLinear, linearModule_parameter (List.getElem?_eq_getElem low)]
    exact List.mem_singleton_self _

/-- The mount graph has the subgraph of a module as `Entering` expects it, unless it has more parameters
than the recursion for the exits can follow. -/
theorem entering_mountNodes {version : UInt32} {s : MountState} (linked : LinkedModules mods)
    (isLinear : mods[m]? = some (linearModule env aliases m modAlias params))
    (deep : params.length + 1 < graphDepth) (verbosity : s.verbosity = 0)
    (nodes : ∀ k, s.node (.mod m k) = mountNodes version mods (.mod m k))
    (fresh : s.world.ext.paramVals m = []) :
    Entering env aliases mods m modAlias params .anotherKey s := by
  refine ⟨isLinear, verbosity, fun k low => ?_, ?_, fresh⟩
  · rw [nodes, mountNodes_module, (exited_spec linked).same _ fun _ tn among => ?_]
    · exact startNodes_linear isLinear k
    · rw [startNodes_linear isLinear, linearModule_parameter (List.getElem?_eq_getElem low)] at among
      rw [List.mem_singleton.mp among]
      exact Option.some_ne_none _
  · have way : Way (startNodes mods) (params.length + 1) .select (.mod m params.length) :=
      .step (linearModule env aliases m modAlias params).trans
        (List.mem_map.mpr ⟨_, List.mem_of_getElem? isLinear, rfl⟩) rfl
        (linear_way isLinear (Nat.zero_add _))
    have last : (linearModule env aliases m modAlias params).nodes params.length =
        { mntOptNames := ["linear_subgraph_exit_dummy_node"]
          flags := { noValue := true }
          tl := [⟨some (lit "default"), none, some (.mod m 2)⟩] } := by
      simp only [linearModule, List.getElem?_length, if_true]
    have leaf := @setExit_leaf _ _ _ .anotherKey _ _ _ _ _ _ way deep
      (by rw [startNodes_linear isLinear, last]) rfl
    rw [nodes, mountNodes_module]
    refine leaf.trans ?_
    rw [startNodes_linear isLinear]
    rfl

theorem linked_linear (env : MountEnv) (aliases : List CStr) (modAlias : CStr)
    (params : List KeyModParam) : LinkedModules [linearModule env aliases 0 modAlias params] := by
  refine ⟨fun g registered => ?_, fun g registered k => ?_⟩
  · rw [List.mem_singleton.mp registered]
    exact ⟨⟨_, rfl, 0, 0, rfl⟩, fun f isFunc => ⟨0, 0, (Option.some.inj isFunc).symm⟩⟩
  · rw [List.mem_singleton.mp registered]
    exact linearModule_links env aliases 0 modAlias params k

/-! ### Alignment -/

/-- **When the array is aligned with the parameters**: the module is found by its alias, every parameter
has a value, and no entry called `default` calls the functions of the subgraph once more. -/
theorem handsAligned_iff {s : MountState} (entering : Entering env aliases mods m modAlias params x s)
    (nonempty : params ≠ []) : HandsAligned aliases mods m params x s ↔
      (s.node .select).val.bind (findModule aliases) = some m ∧
      (∀ v ∈ parameterValues params s.nvps, v.isSome) ∧ CalledOnce params s.nvps := by
  rw [entering.handsAligned, calledOnce_iff]
  constructor
  · rintro ⟨found, isFound, once, aligned⟩
    have isModule : found = m := by
      by_contra other
      -- the array of the module is still empty, but it has parameters
      rw [Function.update_of_ne (Ne.symm other), entering.fresh] at aligned
      have length := congrArg List.length aligned
      rw [parameterValues_length] at length
      exact nonempty (List.length_eq_zero_iff.mp length.symm)
    rw [isModule, Function.update_self, collected_aligned] at aligned
    exact ⟨isModule ▸ isFound, aligned.1, aligned.2, once⟩
  · rintro ⟨isFound, given, named, once⟩
    refine ⟨m, isFound, once, ?_⟩
    rw [Function.update_self]
    exact collected_aligned.mpr ⟨given, named⟩

/-- The mount graph of a module `tspi` with the given parameters, when the module is selected. -/
def tspiState (params : List KeyModParam) (nvps : List NameValPair) : MountState :=
  let s := mountState 0 [linearModule plainEnv [lit "tspi"] 0 (lit "tspi") params] nvps []
  s.setNode .select { s.node .select with val := some (lit "tspi") }

theorem entering_tspi (params : List KeyModParam) (nvps : List NameValPair)
    (deep : params.length + 1 < graphDepth) : Entering plainEnv [lit "tspi"]
      [linearModule plainEnv [lit "tspi"] 0 (lit "tspi") params] 0 (lit "tspi") params .anotherKey
      (tspiState params nvps) :=
  entering_mountNodes (linked_linear _ _ _ _) rfl deep rfl
    (fun k => World.nodes_setNode_of_ne _ _ (by rintro ⟨⟩)) rfl

theorem tspiState_select (params : List KeyModParam) (nvps : List NameValPair) :
    (((tspiState params nvps).node .select).val.bind (findModule [lit "tspi"])) = some 0 := by
  have val : ((tspiState params nvps).node .select).val = some (lit "tspi") := by
    exact congrArg ParamNode.val (World.nodes_setNode_self _ _ _)
  rw [val]
  rfl

/-- A parameter that may be left to its default, and one that has to be given. -/
def tspiParams : List KeyModParam :=
  [⟨lit "keyfile", none, some (lit "/etc/key"), true⟩, ⟨lit "tspi_uuid", none, none, true⟩]

/-- The file is left to its default, and the identifier is given. -/
theorem handsAligned_default : HandsAligned [lit "tspi"]
    [linearModule plainEnv [lit "tspi"] 0 (lit "tspi") tspiParams] 0 tspiParams .anotherKey
    (tspiState tspiParams [⟨lit "key", some (lit "tspi"), true⟩, ⟨lit "verbosity", some (lit "0"), false⟩,
      ⟨lit "tspi_uuid", some (lit "01"), false⟩]) :=
  (handsAligned_iff (entering_tspi _ _ (by decide)) (by decide)).mpr
    ⟨tspiState_select _ _, by decide, by decide⟩

/-- **Values that move up.**  The file is not given, and the passphrase becomes the first value. -/
theorem handsAligned_moved :
    let params : List KeyModParam :=
      [⟨lit "keyfile", none, none, true⟩, ⟨lit "passwd", none, none, false⟩]
    let mods := [linearModule plainEnv [lit "tspi"] 0 (lit "tspi") params]
    let s := tspiState params [⟨lit "key", some (lit "tspi"), true⟩,
      ⟨lit "verbosity", some (lit "0"), false⟩, ⟨lit "passwd", some (lit "secret"), false⟩]
    ¬ HandsAligned [lit "tspi"] mods 0 params .anotherKey s ∧
      parameterValues params s.nvps = [none, some (lit "secret")] ∧
      ∃ w c t, enterLinearSubgraph [lit "tspi"] .select s.world = .ok (0, w) ∧
        Machine.after (evalStep (mountCall (moduleCalls mods))) 3 (.at (.mod 0 0) { s with world := w }) =
          some c ∧
        Passed (.mod 0 2) .anotherKey c t ∧ t.world.ext.paramVals 0 = [lit "secret"] := by
  intro params mods s
  have entering : Entering plainEnv [lit "tspi"] mods 0 (lit "tspi") params .anotherKey s :=
    entering_tspi _ _ (by decide)
  have selected : (s.node .select).val.bind (findModule [lit "tspi"]) = some 0 := tspiState_select _ _
  refine ⟨fun aligned => ?_, rfl, ?_⟩
  · obtain ⟨found, isFound, -, same⟩ := entering.handsAligned.mp aligned
    obtain rfl := Option.some.inj (selected.symm.trans isFound)
    rw [Function.update_self] at same
    exact absurd same (by decide)
  · obtain ⟨c, t, reached, passed, array⟩ := entering.passes 0 (by decide)
    refine ⟨_, c, t, enterLinearSubgraph_ok.mpr ⟨0, selected, rfl⟩, reached, passed, ?_⟩
    rw [array, Function.update_self]
    rfl

end Ecryptfs
