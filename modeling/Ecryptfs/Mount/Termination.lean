import Ecryptfs.Graph.Runs
import Ecryptfs.Lib.Machine
import Ecryptfs.Mount.Callbacks

/-!
# Termination of the mount graph

Evaluations of the mount graph with verbosity 0, with the passphrase module as the only key module.
The graph has two cycles, over the keys and over the two nodes of filename encryption, and both
consume an entry of the list of name/value pairs or a value that came from it, with three exceptions:
filename encryption is asked for without a value and there is no signature for it, a list entry is
called `default`, and the key loop runs over a module without parameters.  `evaluation_terminates`
says that an evaluation that stays clear of these terminates.
-/

namespace Ecryptfs

open StateTransition

variable {g : NodeId → MountNode} {mods : List GraphModule}

/-! ## Values and the list -/

/-- Whether node number `k` of the key module has a value. -/
def heldValue (s : MountState) (k : ℕ) : ℕ := if (s.node (.mod 0 k)).val.isSome then 1 else 0

/-- What an evaluation can still consume: the entries that were not processed, and the values of the
three nodes that can give the passphrase. -/
def supply (s : MountState) : ℕ :=
  unprocessed s.nvps + heldValue s 1 + heldValue s 2 + heldValue s 3

/-- The nodes whose values are part of the supply. -/
def suppliers : List NodeId := [.mod 0 1, .mod 0 2, .mod 0 3]

theorem heldValue_le (s : MountState) (k : ℕ) : heldValue s k ≤ 1 := by
  unfold heldValue
  split_ifs <;> simp

theorem heldValue_congr {s t : MountState} {k : ℕ}
    (same : (t.node (.mod 0 k)).val = (s.node (.mod 0 k)).val) : heldValue t k = heldValue s k := by
  unfold heldValue
  rw [same]

theorem heldValue_retrieve {s : MountState} {n : NodeId} {k : ℕ} (other : n ≠ .mod 0 k) :
    heldValue (retrieve n s) k = heldValue s k := by
  apply heldValue_congr
  rw [node_retrieve, if_neg other.symm]

/-- A node gets a value at the expense of an entry. -/
theorem supply_retrieve {s : MountState} {n : NodeId}
    (noDefault : n ∈ suppliers → (s.node n).defaultVal = none) :
    supply (retrieve n s) ≤ supply s := by
  have bounds : ∀ k, heldValue (retrieve n s) k ≤ 1 := heldValue_le _
  by_cases supplier : n ∈ suppliers
  · have others : ∀ k, n ≠ .mod 0 k → heldValue (retrieve n s) k = heldValue s k :=
      fun k => heldValue_retrieve
    unfold supply
    obtain entry | ⟨-, list, same⟩ := retrieve_cases n s
    · simp only [suppliers, List.mem_cons, List.not_mem_nil, or_false] at supplier
      rcases supplier with rfl | rfl | rfl
      · have := bounds 1
        rw [others 2 (by decide), others 3 (by decide)]
        omega
      · have := bounds 2
        rw [others 1 (by decide), others 3 (by decide)]
        omega
      · have := bounds 3
        rw [others 1 (by decide), others 2 (by decide)]
        omega
    · have all : ∀ k, heldValue (retrieve n s) k = heldValue s k := by
        intro k
        by_cases this_ : n = .mod 0 k
        · subst this_
          exact heldValue_congr (congrArg ParamNode.val (same (noDefault supplier)))
        · exact others k this_
      rw [list, all, all, all]
  · have others : ∀ k ∈ [1, 2, 3], heldValue (retrieve n s) k = heldValue s k := by
      intro k among
      apply heldValue_retrieve
      rintro rfl
      simp [suppliers] at supplier among
      omega
    unfold supply
    rw [others 1 (by decide), others 2 (by decide), others 3 (by decide)]
    obtain entry | ⟨-, list, -⟩ := retrieve_cases n s
    · omega
    · rw [list]

/-! ## The two cycles -/

/-- The ways between the nodes of the key module: without parameters it is left right away, otherwise
one of the nodes for the passphrase is chosen and the salt follows.  The callbacks of these nodes use
up their value. -/
structure KeyWays (g : NodeId → MountNode) (mods : List GraphModule) (linear : Bool) : Prop
    extends KeyGraph g mods where
  ways : ∀ m k, ∀ tn ∈ (g (.mod m k)).tl, ∀ x, tn.nextToken = some x →
    (x = .anotherKey ∧ k = if linear then 0 else 4) ∨ (k = 0 ∧ x ∈ suppliers) ∨
      (.mod m k ∈ suppliers ∧ x = .mod 0 4)
  drains : ∀ n ∈ suppliers, ∀ tn ∈ (g n).tl, ∃ c, tn.transFunc = some (.mod 0 c) ∧
    ∀ nvps w code w', moduleCalls mods 0 c n nvps w = .ok (code, w') →
      (w'.nodes n).val = none ∧ ((w.nodes n).val = none → code < 0 ∨ code = mountError)
  noDefault : ∀ n ∈ .fnekSig :: .enableFilenameCrypto :: suppliers, (g n).defaultVal = none
  fnekNames : (g .fnekSig).mntOptNames = [lit "ecryptfs_fnek_sig"]

/-- What `alloc_and_get_val` at node `n` keeps. -/
structure Allocated (g : NodeId → MountNode) (n : NodeId) (s t : MountState) : Prop where
  world : WorldOk g t.world
  verbosity : t.verbosity = 0
  names : t.nvps.map NameValPair.name = s.nvps.map NameValPair.name
  fresh : ∀ e ∈ t.nvps, e.processed = false → e ∈ s.nvps
  supply : supply t ≤ supply s
  other : ∀ k ∈ [.fnekSig, .enableFilenameCrypto], k ≠ n → t.node k = s.node k

theorem WorldOk.quiet {n : NodeId} {s : MountState} (ok : WorldOk g s.world)
    (verbosity : s.verbosity = 0) : Quiet n s :=
  ⟨verbosity, (ok n).stdin⟩

theorem WorldOk.retrieve {s : MountState} (ok : WorldOk g s.world) (n : NodeId) :
    WorldOk g (retrieve n s).world := by
  intro k
  change NodeOk g k ((Ecryptfs.retrieve n s).node k)
  rw [node_retrieve]
  split_ifs with same
  · obtain ⟨v, set, fields⟩ := (retrieveVal_spec (s.node n) s.nvps).fields
    rw [fields, same]
    exact ⟨(ok n).names, (ok n).default, (ok n).stdin, (ok n).implicit, (ok n).tl⟩
  · exact ok k

theorem Allocated.retrieve {linear : Bool} (ways : KeyWays g mods linear) {n m : NodeId}
    {s t : MountState} (allocated : Allocated g n s t)
    (here : m ∉ [NodeId.fnekSig, .enableFilenameCrypto] ∨ m = n) :
    Allocated g n s (retrieve m t) := by
  refine ⟨allocated.world.retrieve m, allocated.verbosity, ?_, fun e among fresh => ?_, ?_,
    fun k special other => ?_⟩
  · rw [names_retrieve, allocated.names]
  · exact allocated.fresh e (unprocessed_of_retrieve among fresh) fresh
  · refine (supply_retrieve fun supplier => ?_).trans allocated.supply
    exact (allocated.world m).default.trans
      (ways.noDefault m (List.mem_cons_of_mem _ (List.mem_cons_of_mem _ supplier)))
  · rw [node_retrieve, if_neg, allocated.other k special other]
    rintro rfl
    rcases here with outside | same
    · exact outside special
    · exact other same

/-- At every node `alloc_and_get_val` gets on and keeps the graph in order. -/
theorem allocated_of_alloc {linear : Bool} (ways : KeyWays g mods linear) {n : NodeId}
    {s t : MountState} {rc : ℤ} (ok : WorldOk g s.world) (verbosity : s.verbosity = 0)
    (h : allocAndGetVal n s = .ok (rc, t)) : rc = 0 ∧ Allocated g n s t := by
  have start : Allocated g n s s := ⟨ok, verbosity, rfl, fun _ among _ => among, le_rfl, fun _ _ _ => rfl⟩
  refine allocAndGetVal_kept (fun u allocated => allocated.world.quiet allocated.verbosity) start
    (fun _ => start.retrieve ways (.inr rfl)) ?_ ?_ h
  · rintro implicit u m allocated ⟨tn, among, leads⟩
    obtain rfl := (ok n).implicit implicit
    refine allocated.retrieve ways (.inl fun special => ?_)
    rcases ways.ways 0 0 tn ((ok (.mod 0 0)).tl ▸ among) m leads with ⟨rfl, -⟩ | ⟨-, supplier⟩ | ⟨-, rfl⟩
    · exact absurd special (by decide)
    · simp only [suppliers, List.mem_cons, List.not_mem_nil, or_false] at supplier
      rcases supplier with rfl | rfl | rfl <;> exact absurd special (by decide)
    · exact absurd special (by decide)
  · intro implicit u v allocated
    obtain rfl := (ok n).implicit implicit
    have only : OnlyVal (.mod 0 0) u.world
        (u.setNode (.mod 0 0) { u.node (.mod 0 0) with val := some v }).world := ⟨some v, rfl⟩
    refine ⟨(allocated.world.onlyVal only).1, allocated.verbosity, allocated.names,
      allocated.fresh, ?_, fun k special other => ?_⟩
    · -- the node with implicit transitions is none of the suppliers
      exact allocated.supply
    · rw [node_setNode, if_neg other]
      exact allocated.other k special other

/-- What a turn that goes from `n` to `m` keeps of the state after `alloc_and_get_val`. -/
structure Turned (g : NodeId → MountNode) (n m : NodeId) (t s' : MountState) : Prop where
  world : WorldOk g s'.world
  nvps : s'.nvps = t.nvps
  verbosity : s'.verbosity = 0
  other : ∀ k, ¬ Touches n k → s'.node k = t.node k
  next : ∃ tn ∈ (s'.node n).tl, tn.nextToken = some m

theorem mountCall_called (graph : KeyGraph g mods) {n : NodeId} {nvps : List NameValPair}
    {w w' : MountWorld} (ok : WorldOk g w) (called : Called (mountCall (moduleCalls mods)) n nvps w w') :
    WorldOk g w' ∧ ∀ k, ¬ Touches n k → w'.nodes k = w.nodes k := by
  obtain ⟨tn, among, f, isFunc, code, called⟩ := called
  exact mountCall_ok graph ok among isFunc called

theorem turned_of_doTransition (graph : KeyGraph g mods) {n m : NodeId} {t s' : MountState}
    (ok : WorldOk g t.world) (verbosity : t.verbosity = 0)
    (h : doTransition (mountCall (moduleCalls mods)) n t = .ok (0, some m, s')) :
    Turned g n m t s' := by
  obtain ⟨⟨nvps, verbosity', world, other⟩, w, i, tn, c, code, -, followed⟩ := doTransition_to
    (P := fun w => WorldOk g w ∧ ∀ k, ¬ Touches n k → w.nodes k = t.world.nodes k)
    verbosity ⟨ok, fun _ _ => rfl⟩
    (fun w w' inP called => by
      obtain ⟨ok', same⟩ := mountCall_called graph inP.1 called
      exact ⟨ok', fun k outside => (same k outside).trans (inP.2 k outside)⟩)
    (fun w inP => (inP.1 n).stdin) h
  obtain ⟨tn', taken, leads⟩ := Option.bind_eq_some_iff.mp followed.next
  exact ⟨world, nvps, verbosity', other, tn', List.mem_of_getElem? taken, leads⟩

/-- A callback at another node leaves the supply alone. -/
theorem Turned.supply {n m : NodeId} {t s' : MountState} (turned : Turned g n m t s')
    (outside : n ∉ suppliers) : supply s' = supply t := by
  have same : ∀ k, .mod 0 k ∈ suppliers → heldValue s' k = heldValue t k := by
    intro k supplier
    apply heldValue_congr
    rw [turned.other]
    rintro (rfl | ⟨-, h⟩ | ⟨-, h⟩ | ⟨-, h⟩)
    · exact outside supplier
    all_goals cases h
  unfold Ecryptfs.supply
  rw [turned.nvps, same 1 (by decide), same 2 (by decide), same 3 (by decide)]

/-- The invariant of an evaluation that stands at node `n`.  The question of filename encryption is
open; it leads to the end when it is asked, and otherwise the node of the signature does. -/
structure Inv (g : NodeId → MountNode) (n : NodeId) (s : MountState) : Prop where
  world : WorldOk g s.world
  verbosity : s.verbosity = 0
  asked : (s.node .enableFilenameCrypto).val = none
  leaves : n ≠ .enableFilenameCrypto → n ≠ .end_ →
    (s.node .fnekSig).tl = [defaultTransition (some .end_) (some .fnekSig)]
  asks : n = .enableFilenameCrypto → (s.node .enableFilenameCrypto).tl =
    [defaultTransition (some .end_) (some .enableFilenameCrypto)] ∧ ¬ Named (lit "default") s.nvps

/-- A number for each node that decreases along the ways of the graph, apart from the two cycles. -/
def height (linear : Bool) : NodeId → ℕ
  | .root => 20
  | .mod _ 4 => 19
  | .anotherKey => if linear then 15 else 18
  | .select => 17
  | .mod _ 0 => 16
  | .mod _ _ => 15
  | n => depthToEnd n

instance (name : CStr) (nvps : List NameValPair) : Decidable (Pending name nvps) :=
  inferInstanceAs (Decidable (∃ e ∈ nvps, e.name = name ∧ e.processed = false))

/-- The height of the node of the signature is lower when the list has a signature for it. -/
def rank (linear : Bool) (s : MountState) (n : NodeId) : ℕ :=
  if n = .fnekSig ∧ (s.node .fnekSig).val = none ∧ Pending (lit "ecryptfs_fnek_sig") s.nvps then 5
  else height linear n

theorem rank_le (linear : Bool) (s : MountState) (n : NodeId) : rank linear s n ≤ height linear n := by
  unfold rank
  split_ifs with here
  · rw [here.1]
    exact (by decide : 5 ≤ 7)
  · exact le_rfl

theorem rank_of_ne {linear : Bool} {s : MountState} {n : NodeId} (other : n ≠ .fnekSig) :
    rank linear s n = height linear n := by
  unfold rank
  rw [if_neg fun here => other here.1]

/-- The node with the value that `alloc_and_get_val` finds for it. -/
def valued (n : NodeId) (s : MountState) : MountNode :=
  if (s.node n).val.isSome then s.node n else (retrieveVal (s.node n) s.nvps).2.1

/-- The steps that need not lead towards the end: filename encryption is asked for without a value,
and there is no further signature for it in the list; the list has an entry `default` when there is no
signature; the key loop goes on while the module has no parameters. -/
structure StaysClear (linear : Bool) (n : NodeId) (s : MountState) : Prop where
  signature : n = .enableFilenameCrypto → (valued n s).flags.parameterSet = true →
    (s.node .fnekSig).val = none ∧ Pending (lit "ecryptfs_fnek_sig") s.nvps
  callbacks : n = .fnekSig → NoSignature (valued n s) → ¬ Named (lit "default") s.nvps
  keys : n = .anotherKey → linear = true →
    ¬ ∃ e ∈ s.nvps, e.processed = false ∧ e.name = lit "key" ∧ e.value = some (lit "passphrase")

/-! ## The turns -/

section

variable {linear : Bool} {n m : NodeId} {s t s' : MountState}

/-- The cost of a turn: it consumes something, or it leads to a lower node. -/
def Advances (linear : Bool) (n m : NodeId) (s s' : MountState) : Prop :=
  supply s' < supply s ∨ (supply s' ≤ supply s ∧ rank linear s' m < rank linear s n)

/-- A node that does not belong to filename encryption keeps the invariant. -/
theorem Inv.turned (inv : Inv g n s) (allocated : Allocated g n s t) (turned : Turned g n m t s')
    (other : n ≠ .fnekSig) (other' : n ≠ .enableFilenameCrypto) (goes : m ≠ .enableFilenameCrypto)
    (stays : n ≠ .end_) : Inv g m s' := by
  have fnek : s'.node .fnekSig = s.node .fnekSig := by
    rw [turned.other, allocated.other _ (by decide) other.symm]
    rintro (h | ⟨-, h⟩ | ⟨-, h⟩ | ⟨h, -⟩)
    · exact other h.symm
    · cases h
    · cases h
    · exact other' h
  have enable : s'.node .enableFilenameCrypto = s.node .enableFilenameCrypto := by
    rw [turned.other, allocated.other _ (by decide) other'.symm]
    rintro (h | ⟨-, h⟩ | ⟨h, -⟩ | ⟨-, h⟩)
    · exact other' h.symm
    · cases h
    · exact other h
    · cases h
  refine ⟨turned.world, turned.verbosity, ?_, fun _ _ => ?_, fun h => absurd h goes⟩
  · rw [enable]
    exact inv.asked
  · rw [fnek]
    exact inv.leaves other' stays

/-- From a node of neither cycle the turn leads to a lower node. -/
theorem advance_of_lower (inv : Inv g n s) (allocated : Allocated g n s t)
    (turned : Turned g n m t s') (outside : n ∉ suppliers) (other : n ≠ .fnekSig)
    (other' : n ≠ .enableFilenameCrypto) (stays : n ≠ .end_)
    (lower : height linear m < height linear n ∧ m ≠ .enableFilenameCrypto) :
    Inv g m s' ∧ Advances linear n m s s' := by
  refine ⟨inv.turned allocated turned other other' lower.2 stays, .inr ⟨?_, ?_⟩⟩
  · rw [turned.supply outside]
    exact allocated.supply
  · rw [rank_of_ne other]
    exact (rank_le linear s' m).trans_lt lower.1

/-- The nodes for the passphrase have a value when they are left, and lose it. -/
theorem supplier_drained (ways : KeyWays g mods linear) (supplier : n ∈ suppliers)
    (ok : WorldOk g t.world) (verbosity : t.verbosity = 0)
    (h : doTransition (mountCall (moduleCalls mods)) n t = .ok (0, some m, s')) :
    (t.node n).val.isSome ∧ (s'.node n).val = none := by
  have static : ∀ w, WorldOk g w → (w.nodes n).tl = (g n).tl := by
    intro w ok
    have tl := (ok n).tl
    simp only [suppliers, List.mem_cons, List.not_mem_nil, or_false] at supplier
    rcases supplier with rfl | rfl | rfl <;> exact tl
  obtain ⟨-, w, i, tn, c, code, ⟨ok', kept⟩, followed⟩ := doTransition_to
    (P := fun w => WorldOk g w ∧ ((t.node n).val = none → (w.nodes n).val = none))
    verbosity ⟨ok, fun absent => absent⟩
    (fun w w' inP called => by
      obtain ⟨ok', -⟩ := mountCall_called ways.toKeyGraph inP.1 called
      obtain ⟨tn, among, f, isFunc, code, called⟩ := called
      obtain ⟨c, isModule, drains⟩ := ways.drains n supplier tn (static w inP.1 ▸ among)
      obtain rfl := Option.some.inj (isFunc.symm.trans isModule)
      exact ⟨ok', fun _ => (drains _ _ _ _ called).1⟩)
    (fun w inP => (inP.1 n).stdin) h
  obtain ⟨c', isModule, drains⟩ := ways.drains n supplier tn
    (static w ok' ▸ List.mem_of_getElem? followed.taken)
  have called := followed.called
  rw [isModule] at called
  obtain ⟨cleared, fails⟩ := drains _ _ _ _ called
  refine ⟨?_, cleared⟩
  by_contra absent
  rcases fails (kept (Option.not_isSome_iff_eq_none.mp absent)) with negative | error
  · exact absurd followed.success.1 (by omega)
  · exact followed.success.2 error

theorem advance_supplier (ways : KeyWays g mods linear) (supplier : n ∈ suppliers)
    (inv : Inv g n s) (allocated : Allocated g n s t) (turned : Turned g n m t s')
    (h : doTransition (mountCall (moduleCalls mods)) n t = .ok (0, some m, s')) :
    Inv g m s' ∧ Advances linear n m s s' := by
  obtain ⟨before, after⟩ := supplier_drained ways supplier allocated.world allocated.verbosity h
  have others : ∀ k, n ≠ .mod 0 k → heldValue s' k = heldValue t k := by
    intro k other
    apply heldValue_congr
    rw [turned.other]
    rintro (same | ⟨-, same⟩ | ⟨-, same⟩ | ⟨-, same⟩)
    · exact other same.symm
    all_goals cases same
  have held : ∀ k, n = .mod 0 k → heldValue s' k = 0 ∧ heldValue t k = 1 := by
    rintro k rfl
    unfold heldValue
    rw [after, if_pos before]
    exact ⟨rfl, rfl⟩
  have drained : supply s' < supply t := by
    unfold supply
    rw [turned.nvps]
    simp only [suppliers, List.mem_cons, List.not_mem_nil, or_false] at supplier
    rcases supplier with rfl | rfl | rfl
    · have := held 1 rfl
      rw [others 2 (by decide), others 3 (by decide)]
      omega
    · have := held 2 rfl
      rw [others 1 (by decide), others 3 (by decide)]
      omega
    · have := held 3 rfl
      rw [others 1 (by decide), others 2 (by decide)]
      omega
  have goes : m ≠ .enableFilenameCrypto := by
    obtain ⟨tn, among, leads⟩ := turned.next
    have tl := (turned.world n).tl
    simp only [suppliers, List.mem_cons, List.not_mem_nil, or_false] at supplier
    rintro rfl
    rcases supplier with rfl | rfl | rfl <;>
    · rcases ways.ways _ _ tn (tl ▸ among) _ leads with ⟨h, -⟩ | ⟨h, -⟩ | ⟨-, h⟩ <;> cases h
  refine ⟨inv.turned allocated turned ?_ ?_ goes ?_, .inl (drained.trans_le allocated.supply)⟩ <;>
  · rintro rfl
    exact absurd supplier (by decide)

/-- A node without a value and without a default either gets a value from the list or keeps what it
has. -/
theorem alloc_open (inv : Inv g n s) (open_ : (s.node n).val = none) (other : n ≠ .mod 0 0)
    (h : allocAndGetVal n s = .ok (0, t)) : t = retrieve n s := by
  have explicit : (s.node n).flags.allowImplicitTransition = false := by
    rw [← Bool.not_eq_true]
    exact fun implicit => other ((inv.world n).implicit implicit)
  rw [allocAndGetVal_quiet (inv.world.quiet inv.verbosity) explicit open_] at h
  exact (Prod.mk.inj (Except.ok.inj h)).2.symm

theorem alloc_valued (inv : Inv g n s) (other : n ≠ .mod 0 0)
    (h : allocAndGetVal n s = .ok (0, t)) : t.node n = valued n s := by
  unfold valued
  split_ifs with given
  · rw [allocAndGetVal_given given] at h
    rw [(Prod.mk.inj (Except.ok.inj h)).2]
  · rw [alloc_open inv (Option.not_isSome_iff_eq_none.mp given) other h, node_retrieve, if_pos rfl]

theorem supply_retrieve_lt (noSupplier : n ∉ suppliers)
    (entry : unprocessed (retrieve n s).nvps + 1 = unprocessed s.nvps) :
    supply (retrieve n s) < supply s := by
  have same : ∀ k, .mod 0 k ∈ suppliers → heldValue (retrieve n s) k = heldValue s k := by
    intro k supplier
    apply heldValue_retrieve
    rintro rfl
    exact noSupplier supplier
  unfold supply
  rw [same 1 (by decide), same 2 (by decide), same 3 (by decide)]
  omega

theorem nextToken_only {w : MountWorld} {x : Option NodeId} {f : Option Callback} {i : ℕ}
    (only : (w.nodes n).tl = [defaultTransition x f]) (leads : nextToken w n i = some m) :
    x = some m := by
  obtain ⟨tn, taken, leads⟩ := Option.bind_eq_some_iff.mp leads
  have among := List.mem_of_getElem? taken
  rw [only, List.mem_singleton] at among
  rw [among] at leads
  exact leads

/-- The node of the signature is lower than the question or consumes a signature of the list. -/
theorem advance_of_question (ways : KeyWays g mods linear) (inv : Inv g .fnekSig s)
    (given : allocAndGetVal .fnekSig s = .ok (0, t)) (supply_ : supply s' = supply t)
    (less : supply t ≤ supply s) : Advances linear .fnekSig .enableFilenameCrypto s s' := by
  by_cases pending : (s.node .fnekSig).val = none ∧ Pending (lit "ecryptfs_fnek_sig") s.nvps
  · refine .inl ?_
    obtain rfl := alloc_open inv pending.1 (by decide) given
    rw [supply_]
    obtain entry | ⟨absent, -⟩ := retrieve_cases .fnekSig s
    · exact supply_retrieve_lt (by decide) entry
    · have names : (s.node .fnekSig).mntOptNames = _ := (inv.world .fnekSig).names
      rw [names, ways.fnekNames] at absent
      exact absurd pending.2 (absent _ List.mem_cons_self)
  · refine .inr ⟨supply_.trans_le less, ?_⟩
    rw [rank_of_ne (by decide), rank, if_neg fun here => pending here.2]
    exact (by decide : 6 < 7)

theorem advance_fnekSig (ways : KeyWays g mods linear) (inv : Inv g .fnekSig s)
    (clear : StaysClear linear .fnekSig s) (allocated : Allocated g .fnekSig s t)
    (turned : Turned g .fnekSig m t s') (given : allocAndGetVal .fnekSig s = .ok (0, t))
    (h : doTransition (mountCall (moduleCalls mods)) .fnekSig t = .ok (0, some m, s')) :
    Inv g m s' ∧ Advances linear .fnekSig m s s' := by
  have tl : (t.node .fnekSig).tl = [defaultTransition (some .end_) (some .fnekSig)] :=
    ((allocAndGetVal_spec given).2 .fnekSig).trans (inv.leaves (by decide) (by decide))
  obtain ⟨y, enable⟩ := (allocated.world .enableFilenameCrypto).tl
  have asked : (t.node .enableFilenameCrypto).val = none := by
    rw [allocated.other _ (by decide) (by decide)]
    exact inv.asked
  have supply_ : supply s' = supply t := turned.supply (by decide)
  by_cases none_ : NoSignature (t.node .fnekSig)
  · -- the callback is called once, and the question is linked in
    have unnamed : ¬ Named (lit "default") t.nvps := by
      have := clear.callbacks rfl (alloc_valued inv (by decide) given ▸ none_)
      rwa [Named, allocated.names]
    obtain ⟨-, i, c, code, -, followed⟩ := doTransition_to_once allocated.verbosity tl rfl unnamed (by
      rintro w (rfl | called)
      · exact (allocated.world .fnekSig).stdin
      · exact ((mountCall_called ways.toKeyGraph allocated.world called).1 .fnekSig).stdin) h
    obtain ⟨-, ⟨-, spliced⟩ | ⟨some_, -⟩⟩ := fnekSigCallback_cases tl enable followed.called
    · obtain rfl : NodeId.enableFilenameCrypto = m := by
        have fnek := congrArg ParamNode.tl spliced.fnek
        exact Option.some.inj (nextToken_only fnek followed.next)
      refine ⟨⟨turned.world, turned.verbosity, ?_, fun h => absurd rfl h, fun _ => ⟨?_, ?_⟩⟩, ?_⟩
      · exact (congrArg ParamNode.val spliced.enable).trans asked
      · exact congrArg ParamNode.tl spliced.enable
      · rwa [turned.nvps]
      · exact advance_of_question ways inv given supply_ allocated.supply
    · exact absurd none_ some_
  · -- with a signature no callback changes a node
    obtain ⟨⟨-, -, -, same⟩, w, i, tn, c, code, -, followed⟩ := doTransition_to
      (P := fun w => WorldOk g w ∧ w.nodes = t.world.nodes) allocated.verbosity
      ⟨allocated.world, rfl⟩
      (fun w w' inP called => by
        obtain ⟨ok', -⟩ := mountCall_called ways.toKeyGraph inP.1 called
        obtain ⟨tn, among, f, isFunc, code, called⟩ := called
        have tl' : (w.nodes .fnekSig).tl = _ := (congrArg (fun nodes => (nodes NodeId.fnekSig).tl)
          inP.2).trans tl
        have enable' := (congrArg (fun nodes => (nodes NodeId.enableFilenameCrypto).tl)
          inP.2).trans enable
        rw [tl', List.mem_singleton] at among
        obtain rfl := Option.some.inj (isFunc.symm.trans (congrArg TransitionNode.transFunc among))
        obtain ⟨-, ⟨none', -⟩ | ⟨-, same⟩⟩ := fnekSigCallback_cases tl' enable' called
        · rw [inP.2] at none'
          exact absurd none' none_
        · exact ⟨ok', same.trans inP.2⟩)
      (fun w inP => (inP.1 .fnekSig).stdin) h
    obtain rfl : NodeId.end_ = m := by
      have fnek := (congrArg (fun nodes => (nodes NodeId.fnekSig).tl) same).trans tl
      exact Option.some.inj (nextToken_only fnek followed.next)
    refine ⟨⟨turned.world, turned.verbosity, ?_, fun _ h => absurd rfl h,
      fun h => (by cases h)⟩, .inr ⟨supply_.trans_le allocated.supply, ?_⟩⟩
    · rw [EvalState.node, same]
      exact asked
    · rw [rank_of_ne (by decide), rank]
      split_ifs
      · exact (by decide : 1 < 5)
      · exact (by decide : 1 < 7)

/-- An answer yes comes from the list, or the list has a signature for the next turn. -/
theorem advance_of_yes (ways : KeyWays g mods linear) (inv : Inv g .enableFilenameCrypto s)
    (clear : StaysClear linear .enableFilenameCrypto s)
    (allocated : Allocated g .enableFilenameCrypto s t)
    (given : allocAndGetVal .enableFilenameCrypto s = .ok (0, t))
    (yes : SaysYes (t.node .enableFilenameCrypto))
    (fnek : (s'.node .fnekSig).val = (s.node .fnekSig).val) (nvps : s'.nvps = t.nvps)
    (supply_ : supply s' = supply t) : Advances linear .enableFilenameCrypto .fnekSig s s' := by
  have isRetrieve := alloc_open inv inv.asked (by decide) given
  obtain entry | ⟨-, list, same⟩ := retrieve_cases .enableFilenameCrypto s
  · refine .inl ?_
    rw [supply_, isRetrieve]
    exact supply_retrieve_lt (by decide) entry
  · -- nothing was taken, so that the flag must have been set before
    have same := same ((inv.world _).default.trans (ways.noDefault _ (by decide)))
    rw [← isRetrieve] at same list
    have set : (valued .enableFilenameCrypto s).flags.parameterSet = true := by
      rw [← alloc_valued inv (by decide) given]
      rcases yes with value | set
      · rw [same, inv.asked] at value
        exact absurd value (by decide)
      · exact set
    have pending := clear.signature rfl set
    have lower : rank linear s' .fnekSig = 5 :=
      if_pos ⟨rfl, fnek.trans pending.1, by rw [nvps, list]; exact pending.2⟩
    refine .inr ⟨supply_.trans_le allocated.supply, ?_⟩
    rw [lower, rank_of_ne (by decide)]
    exact (by decide : 5 < 6)

theorem advance_enable (ways : KeyWays g mods linear) (inv : Inv g .enableFilenameCrypto s)
    (clear : StaysClear linear .enableFilenameCrypto s)
    (allocated : Allocated g .enableFilenameCrypto s t)
    (turned : Turned g .enableFilenameCrypto m t s')
    (given : allocAndGetVal .enableFilenameCrypto s = .ok (0, t))
    (h : doTransition (mountCall (moduleCalls mods)) .enableFilenameCrypto t =
      .ok (0, some m, s')) :
    Inv g m s' ∧ Advances linear .enableFilenameCrypto m s s' := by
  obtain ⟨leads, unnamed⟩ := inv.asks rfl
  have tl : (t.node .enableFilenameCrypto).tl =
      [defaultTransition (some .end_) (some .enableFilenameCrypto)] :=
    ((allocAndGetVal_spec given).2 .enableFilenameCrypto).trans leads
  obtain ⟨x, fnek⟩ := (allocated.world .fnekSig).tl
  have supply_ : supply s' = supply t := turned.supply (by decide)
  obtain ⟨-, i, c, code, -, followed⟩ := doTransition_to_once allocated.verbosity tl rfl
    (by rwa [Named, allocated.names]) (by
      rintro w (rfl | called)
      · exact (allocated.world .enableFilenameCrypto).stdin
      · exact ((mountCall_called ways.toKeyGraph allocated.world called).1
          .enableFilenameCrypto).stdin) h
  obtain ⟨yes, spliced⟩ | ⟨-, cleared⟩ := getEnableFilenameCrypto_cases fnek tl followed.called
  · obtain rfl : NodeId.fnekSig = m := by
      have enable := congrArg ParamNode.tl spliced.enable
      exact Option.some.inj (nextToken_only enable followed.next)
    obtain ⟨suggested, fnek'⟩ := spliced.fnek
    refine ⟨⟨turned.world, turned.verbosity, ?_, fun _ _ => ?_, fun h => (by cases h)⟩, ?_⟩
    · exact congrArg ParamNode.val spliced.enable
    · exact congrArg ParamNode.tl fnek'
    · have value := congrArg ParamNode.val fnek'
      change (s'.node .fnekSig).val = (t.node .fnekSig).val at value
      rw [allocated.other .fnekSig (by decide) (by decide)] at value
      exact advance_of_yes ways inv clear allocated given yes value turned.nvps supply_
  · obtain rfl : NodeId.end_ = m := by
      have tl' : (s'.world.nodes .enableFilenameCrypto).tl = _ :=
        (congrArg (fun nodes => (nodes NodeId.enableFilenameCrypto).tl) cleared).trans
          ((congrArg ParamNode.tl (clearVal_self t.world _)).trans tl)
      exact Option.some.inj (nextToken_only tl' followed.next)
    refine ⟨⟨turned.world, turned.verbosity, ?_, fun _ h => absurd rfl h,
      fun h => (by cases h)⟩, .inr ⟨supply_.trans_le allocated.supply, ?_⟩⟩
    · rw [EvalState.node, cleared, clearVal_self]
    · rw [rank_of_ne (by decide), rank_of_ne (by decide)]
      exact (by decide : 1 < 6)

theorem findAnotherKey_found {label : CStr} {next : Option NodeId} {f : Option Callback}
    {nvps : List NameValPair} (h : findAnotherKey [⟨some label, next, f⟩] nvps = .ok true) :
    ∃ e ∈ nvps, e.processed = false ∧ e.name = lit "key" ∧ e.value = some label := by
  induction nvps with
  | nil => cases h
  | cons e es ih =>
    have later : findAnotherKey [⟨some label, next, f⟩] es = .ok true → ∃ e' ∈ e :: es,
        e'.processed = false ∧ e'.name = lit "key" ∧ e'.value = some label := by
      intro h
      obtain ⟨e', among, found⟩ := ih h
      exact ⟨e', List.mem_cons_of_mem _ among, found⟩
    rw [findAnotherKey] at h
    split_ifs at h with skipped
    · exact later h
    · rw [not_or, not_not, Bool.not_eq_true] at skipped
      split at h
      · cases h
      · next matched =>
        refine ⟨e, List.mem_cons_self, skipped.1, skipped.2, ?_⟩
        cases value : e.value with
        | none => simp [value, matchesKeyModule] at matched
        | some v =>
          simp only [value, matchesKeyModule] at matched
          split_ifs at matched with same
          · rw [same]
          · cases matched
      · exact later h

/-- Without parameters the key loop only goes on for an entry that names the module. -/
theorem anotherKey_next (graph : KeyGraph g mods) (ok : WorldOk g t.world)
    (verbosity : t.verbosity = 0)
    (h : doTransition (mountCall (moduleCalls mods)) .anotherKey t = .ok (0, some m, s')) :
    m = .cipher ∨ (m = .select ∧
      ∃ e ∈ t.nvps, e.processed = false ∧ e.name = lit "key" ∧ e.value = some (lit "passphrase")) := by
  obtain ⟨-, w, i, tn, c, code, ok', followed⟩ := doTransition_to (P := WorldOk g) verbosity ok
    (fun w w' inP called => (mountCall_called graph inP called).1)
    (fun w inP => (inP .anotherKey).stdin) h
  obtain ⟨x, -, tl⟩ := (ok' .anotherKey).tl
  have among := List.mem_of_getElem? followed.taken
  rw [tl, List.mem_singleton] at among
  have called := followed.called
  rw [among] at called
  change anotherKeyCallback t.nvps .anotherKey w = _ at called
  unfold anotherKeyCallback at called
  split at called
  · cases called
  · next found searched =>
    obtain ⟨-, after⟩ := Prod.mk.inj (Except.ok.inj called)
    have tl' := setFirstNext_nodes tl (some (if found then .select else .cipher))
    rw [after] at tl'
    have leads := nextToken_only (by rw [tl', Function.update_self]) followed.next
    cases found with
    | false => exact .inl (Option.some.inj leads).symm
    | true =>
      obtain ⟨f, select, -⟩ := graph.select
      rw [(ok' .select).tl, select] at searched
      exact .inr ⟨(Option.some.inj leads).symm, findAnotherKey_found searched⟩

theorem height_eq (behind : depthToEnd n < 15) : height linear n = depthToEnd n := by
  cases n with
  | root => exact absurd behind (by decide)
  | select => exact absurd behind (by decide)
  | anotherKey => exact absurd behind (by decide)
  | mod i k => exact absurd behind (lt_irrefl 15)
  | _ => rfl

theorem depthToEnd_featureNodes : ∀ n ∈ featureNodes, depthToEnd n < 15 := by
  decide

/-- Every turn keeps the invariant and advances. -/
theorem advance (ways : KeyWays g mods linear) (inv : Inv g n s) (clear : StaysClear linear n s)
    (h : evalStep (mountCall (moduleCalls mods)) (.at n s) = some (.at m s')) :
    Inv g m s' ∧ Advances linear n m s s' := by
  obtain ⟨t, given, transitioned⟩ := evalStep_at h
  obtain ⟨-, allocated⟩ := allocated_of_alloc ways inv.world inv.verbosity given
  have turned := turned_of_doTransition ways.toKeyGraph allocated.world allocated.verbosity transitioned
  obtain ⟨tn, among, leads⟩ := turned.next
  have tl := (turned.world n).tl
  have lower : (n ∉ suppliers ∧ n ≠ .fnekSig ∧ n ≠ .enableFilenameCrypto ∧ n ≠ .end_) →
      height linear m < height linear n ∧ m ≠ .enableFilenameCrypto →
      Inv g m s' ∧ Advances linear n m s s' := by
    rintro ⟨outside, other, other', stays⟩
    exact advance_of_lower inv allocated turned outside other other' stays
  have feature : n ∈ featureNodes → (s'.node n).tl = (g n).tl →
      height linear m < height linear n ∧ m ≠ .enableFilenameCrypto := by
    intro inside static
    have before := depthToEnd_featureNodes n inside
    have less := (ways.features n inside tn (static ▸ among)).2 m leads
    rw [height_eq (by omega), height_eq (by omega)]
    exact less
  cases n with
  | root =>
    obtain ⟨x, goes, tl⟩ := tl
    change (s'.node .root).tl = _ at tl
    rw [tl, List.mem_singleton] at among
    rw [among] at leads
    obtain rfl := Option.some.inj leads
    apply lower (by decide)
    rcases goes with rfl | rfl
    · exact ⟨(by decide : 14 < 20), by decide⟩
    · exact ⟨(by decide : 17 < 20), by decide⟩
  | select =>
    obtain ⟨f, select, -⟩ := ways.select
    change (s'.node .select).tl = (g .select).tl at tl
    rw [tl, select, List.mem_singleton] at among
    rw [among] at leads
    obtain rfl := Option.some.inj leads
    exact lower (by decide) ⟨(by decide : 16 < 17), by decide⟩
  | cipher =>
    obtain rfl := Option.some.inj (leads.symm.trans (ways.cipher tn (tl ▸ among)).1)
    exact lower (by decide) ⟨(by decide : 13 < 14), by decide⟩
  | keyBytes =>
    obtain rfl := Option.some.inj (leads.symm.trans (tl tn among).1)
    exact lower (by decide) ⟨(by decide : 12 < 13), by decide⟩
  | versionSupport | passthrough | hmac | xattr | encryptedPassthrough =>
    exact lower (by decide) (feature (by decide) tl)
  | fnekSig => exact advance_fnekSig ways inv clear allocated turned given transitioned
  | enableFilenameCrypto => exact advance_enable ways inv clear allocated turned given transitioned
  | anotherKey =>
    have next_ := anotherKey_next ways.toKeyGraph allocated.world allocated.verbosity transitioned
    apply lower (by decide)
    rcases next_ with rfl | ⟨rfl, entry⟩
    · cases linear
      · exact ⟨(by decide : 14 < 18), by decide⟩
      · exact ⟨(by decide : 14 < 15), by decide⟩
    · cases linear
      · exact ⟨(by decide : 17 < 18), by decide⟩
      · obtain ⟨e, among, fresh, key⟩ := entry
        exact absurd ⟨e, allocated.fresh e among fresh, fresh, key⟩ (clear.keys rfl rfl)
  | end_ =>
    change (s'.node .end_).tl = (g .end_).tl at tl
    rw [tl, ways.ends.1] at among
    cases among
  | dummy =>
    change (s'.node .dummy).tl = (g .dummy).tl at tl
    rw [tl, ways.ends.2] at among
    cases among
  | mod i k =>
    rcases ways.ways i k tn (tl ▸ among) m leads with ⟨rfl, way⟩ | ⟨rfl, supplier⟩ | ⟨supplier, -⟩
    · cases linear
      · obtain rfl : k = 4 := way
        exact lower (by simp [suppliers]) ⟨(by decide : 18 < 19), by decide⟩
      · obtain rfl : k = 0 := way
        exact lower (by simp [suppliers]) ⟨(by decide : 15 < 16), by decide⟩
    · apply lower (by simp [suppliers])
      simp only [suppliers, List.mem_cons, List.not_mem_nil, or_false] at supplier
      rcases supplier with rfl | rfl | rfl <;> exact ⟨(by decide : 15 < 16), by decide⟩
    · exact advance_supplier ways supplier inv allocated turned transitioned

end

/-! ## The graph with the passphrase module -/

/-- The facts about the nodes behind the keys, which are the same for all key modules. -/
theorem features_of_static {version : UInt32} {nodes : NodeId → MountNode}
    (static : ∀ n ∈ featureNodes, nodes n = staticNode n) (n : NodeId) (inside : n ∈ featureNodes)
    (tn : TransitionNode NodeId Callback) (among : tn ∈ (fillInVersionSupport version nodes n).tl) :
    tn.transFunc = featureCallback n ∧
      ∀ m, tn.nextToken = some m → depthToEnd m < depthToEnd n ∧ m ≠ .enableFilenameCrypto := by
  obtain ⟨tn₀, among₀, func, next_⟩ := fillInVersionSupport_tl (by
    rintro rfl
    exact absurd inside (by decide)) among
  rw [static n inside] at among₀
  have table : ∀ n ∈ featureNodes, 1 < depthToEnd n ∧ ∀ tn ∈ (staticNode n).tl,
      tn.transFunc = featureCallback n ∧ (tn.nextToken = none ∨ tn.nextToken = some .end_) := by
    decide
  obtain ⟨front, statics⟩ := table n inside
  obtain ⟨func₀, next₀⟩ := statics tn₀ among₀
  refine ⟨func.trans func₀, fun m leads => ?_⟩
  rcases next_ with same | ⟨x, isX, less, member⟩
  · rw [same] at leads
    rcases next₀ with none_ | end_
    · rw [none_] at leads
      cases leads
    · obtain rfl := Option.some.inj (end_.symm.trans leads)
      exact ⟨front, by decide⟩
  · obtain rfl := Option.some.inj (isX.symm.trans leads)
    exact ⟨less, (featureChain_versioned version x member).2.2⟩

/-- The transitions of the passphrase module in the graph. -/
inductive PassphraseWay : ℕ → TransitionNode NodeId Callback → Prop
  | type {tn} (func : tn.transFunc = none) (next : ∃ x ∈ suppliers, tn.nextToken = some x) :
      PassphraseWay 0 tn
  | passwd {tn} (func : tn.transFunc = some (.mod 0 0)) (next : tn.nextToken = some (.mod 0 4)) :
      PassphraseWay 1 tn
  | file {k tn} (isFile : k = 2 ∨ k = 3) (func : tn.transFunc = some (.mod 0 1))
      (next : tn.nextToken = some (.mod 0 4)) : PassphraseWay k tn
  | salt {tn} (func : tn.transFunc = some (.mod 0 2)) (next : tn.nextToken = some .anotherKey) :
      PassphraseWay 4 tn

theorem passphraseWay (env : MountEnv) {m k : ℕ} {tn : TransitionNode NodeId Callback}
    (among : tn ∈ (passphraseExited env (.mod m k)).tl) : m = 0 ∧ PassphraseWay k tn := by
  rcases m with _ | m
  · refine ⟨rfl, ?_⟩
    rcases k with _ | _ | _ | _ | _ | k
    · have table : ∀ tn ∈ (passphraseNode 0 0).tl, tn.transFunc = none ∧
          ∃ x ∈ suppliers, tn.nextToken = some x := by decide
      exact .type (table tn among).1 (table tn among).2
    · have table : ∀ tn ∈ (passphraseNode 0 1).tl, tn.transFunc = some (.mod 0 0) ∧
          tn.nextToken = some (.mod 0 4) := by decide
      exact .passwd (table tn among).1 (table tn among).2
    · have table : ∀ tn ∈ (passphraseNode 0 2).tl, tn.transFunc = some (.mod 0 1) ∧
          tn.nextToken = some (.mod 0 4) := by decide
      exact .file (.inl rfl) (table tn among).1 (table tn among).2
    · have table : ∀ tn ∈ (passphraseNode 0 3).tl, tn.transFunc = some (.mod 0 1) ∧
          tn.nextToken = some (.mod 0 4) := by decide
      exact .file (.inr rfl) (table tn among).1 (table tn among).2
    · have table : ∀ tn ∈ saltExit.tl, tn.transFunc = some (.mod 0 2) ∧
          tn.nextToken = some .anotherKey := by decide
      exact .salt (table tn among).1 (table tn among).2
    · cases among
  · cases among

theorem linearExited_mod (env : MountEnv) (aliases : List CStr) (name : CStr) (m k : ℕ) :
    (linearExited env aliases name (.mod (m + 1) k)).tl = [] ∧
      (linearExited env aliases name (.mod 0 (k + 1))).tl = [] := by
  exact ⟨rfl, rfl⟩

variable {nodes : NodeId → MountNode}

theorem Static.features (static : Static nodes) (version : UInt32) : ∀ n ∈ featureNodes,
    ∀ tn ∈ (fillInVersionSupport version nodes n).tl, tn.transFunc = featureCallback n ∧
      ∀ m, tn.nextToken = some m → depthToEnd m < depthToEnd n ∧ m ≠ .enableFilenameCrypto := by
  refine features_of_static fun n inside => static.same n ?_ ?_
  · rintro rfl
    exact absurd inside (by decide)
  · rintro m k rfl
    simp [featureNodes] at inside

/-- The names and the default of a node are not filled in. -/
theorem fillInVersionSupport_kept (version : UInt32) (nodes : NodeId → MountNode) (n : NodeId) :
    (fillInVersionSupport version nodes n).mntOptNames = (nodes n).mntOptNames ∧
      (fillInVersionSupport version nodes n).defaultVal = (nodes n).defaultVal := by
  obtain ⟨tl, suggested, fields⟩ := fillInVersionSupport_fields version nodes n
  rw [fields]
  exact ⟨rfl, rfl⟩

/-- Nothing leads on from the last nodes. -/
theorem Static.ends (static : Static nodes) (version : UInt32) :
    (fillInVersionSupport version nodes .end_).tl = [] ∧
      (fillInVersionSupport version nodes .dummy).tl = [] := by
  rw [fillInVersionSupport_other (by decide), fillInVersionSupport_other (by decide),
    static.same .end_ (by decide) (by simp), static.same .dummy (by decide) (by simp)]
  exact ⟨rfl, rfl⟩

/-- The callbacks of the passphrase module change the values of their nodes only. -/
theorem passphraseModule_onlyVal (env : MountEnv) {c : ℕ} {n : NodeId} {nvps : List NameValPair}
    {w w' : MountWorld} {code : ℤ}
    (h : moduleCalls [passphraseModule env 0] 0 c n nvps w = .ok (code, w')) : OnlyVal n w w' := by
  rcases c with _ | _ | _ | c
  · rcases tfPasswd_cases h with ⟨-, -, rfl⟩ | ⟨-, cleared⟩
    · exact .of_nodes rfl
    · exact .clear cleared
  · exact .clear (tfPassFile_cases h).2
  · exact tfSalt_onlyVal h
  · cases h

/-- The callbacks of the nodes for the passphrase use up the value of their node, and fail without one. -/
theorem passphrase_drains (env : MountEnv) (version : UInt32) : ∀ n ∈ suppliers,
    ∀ tn ∈ (fillInVersionSupport version (passphraseExited env) n).tl,
      ∃ c, tn.transFunc = some (.mod 0 c) ∧ ∀ nvps w code w',
        moduleCalls [passphraseModule env 0] 0 c n nvps w = .ok (code, w') →
        (w'.nodes n).val = none ∧ ((w.nodes n).val = none → code < 0 ∨ code = mountError) := by
  intro n supplier tn among
  have isModule : ∃ k, n = .mod 0 k ∧ k ≠ 0 ∧ k ≠ 4 := by
    simp only [suppliers, List.mem_cons, List.not_mem_nil, or_false] at supplier
    rcases supplier with rfl | rfl | rfl
    · exact ⟨1, rfl, by decide, by decide⟩
    · exact ⟨2, rfl, by decide, by decide⟩
    · exact ⟨3, rfl, by decide, by decide⟩
  obtain ⟨k, rfl, notType, notSalt⟩ := isModule
  rw [fill_mod] at among
  obtain ⟨-, way⟩ := passphraseWay env among
  cases way with
  | type => exact absurd rfl notType
  | passwd func next_ =>
    refine ⟨0, func, fun nvps w code w' h => ?_⟩
    rcases tfPasswd_cases h with ⟨absent, rfl, rfl⟩ | ⟨given, cleared⟩
    · exact ⟨absent, fun _ => .inl (by decide)⟩
    · refine ⟨by rw [cleared, clearVal_self], fun absent => ?_⟩
      rw [absent] at given
      cases given
  | file isFile func next_ =>
    refine ⟨1, func, fun nvps w code w' h => ?_⟩
    obtain ⟨fails, cleared⟩ := tfPassFile_cases h
    exact ⟨by rw [cleared, clearVal_self], fails⟩
  | salt => exact absurd rfl notSalt

/-- The graph of the passphrase module. -/
theorem keyWays_passphrase (env : MountEnv) (version : UInt32) :
    KeyWays (fillInVersionSupport version (passphraseExited env)) [passphraseModule env 0] false := by
  have static := static_passphrase env
  refine { select := ?_, modFuncs := ?_, calls := fun _ _ _ _ _ _ => passphraseModule_onlyVal env
           cipher := static.cipher version, features := static.features version
           ends := static.ends version, ways := ?_, drains := passphrase_drains env version
           noDefault := ?_, fnekNames := (fillInVersionSupport_kept _ _ _).1 }
  · rw [fillInVersionSupport_other (by decide)]
    exact ⟨none, rfl, .inl rfl⟩
  · intro m k tn among f isFunc
    rw [fill_mod] at among
    obtain ⟨rfl, way⟩ := passphraseWay env among
    cases way with
    | type func next_ =>
      rw [func] at isFunc
      cases isFunc
    | passwd func next_ => exact ⟨0, Option.some.inj (isFunc.symm.trans func)⟩
    | file isFile func next_ => exact ⟨1, Option.some.inj (isFunc.symm.trans func)⟩
    | salt func next_ => exact ⟨2, Option.some.inj (isFunc.symm.trans func)⟩
  · intro m k tn among x leads
    rw [fill_mod] at among
    obtain ⟨rfl, way⟩ := passphraseWay env among
    cases way with
    | type func next_ =>
      obtain ⟨y, supplier, next_⟩ := next_
      obtain rfl := Option.some.inj (leads.symm.trans next_)
      exact .inr (.inl ⟨rfl, supplier⟩)
    | passwd func next_ => exact .inr (.inr ⟨by decide, Option.some.inj (leads.symm.trans next_)⟩)
    | file isFile func next_ =>
      refine .inr (.inr ⟨?_, Option.some.inj (leads.symm.trans next_)⟩)
      rcases isFile with rfl | rfl <;> decide
    | salt func next_ => exact .inl ⟨Option.some.inj (leads.symm.trans next_), rfl⟩
  · intro n among
    rw [(fillInVersionSupport_kept _ _ _).2]
    simp only [suppliers, List.mem_cons, List.not_mem_nil, or_false] at among
    rcases among with rfl | rfl | rfl | rfl | rfl <;> rfl

/-- The graph of a module without parameters. -/
theorem keyWays_linear (env : MountEnv) (aliases : List CStr) (version : UInt32) :
    KeyWays (fillInVersionSupport version (linearExited env aliases (lit "passphrase")))
      [linearModule env aliases 0 (lit "passphrase") []] true := by
  have static := static_linear env aliases (lit "passphrase")
  have ends := linearExited_mod env aliases (lit "passphrase")
  have way : ∀ m k tn, tn ∈ (linearExited env aliases (lit "passphrase") (.mod m k)).tl →
      k = 0 ∧ tn = defaultTransition (some .anotherKey) (some (.mod 0 2)) := by
    intro m k tn among
    rcases m with _ | m
    · rcases k with _ | k
      · exact ⟨rfl, List.mem_singleton.mp among⟩
      · rw [(ends 0 k).2] at among
        cases among
    · rw [(ends m k).1] at among
      cases among
  have calls : ∀ c n nvps w code w', moduleCalls
      [linearModule env aliases 0 (lit "passphrase") []] 0 c n nvps w = .ok (code, w') →
      OnlyVal n w w' := by
    intro c n nvps w code w' h
    rcases c with _ | _ | _ | c
    · exact enterLinearSubgraph_onlyVal h
    · exact linearSubgraphVal_onlyVal h
    · exact exitLinearSubgraph_onlyVal h
    · cases h
  refine { select := ?_, modFuncs := ?_, calls := calls, cipher := static.cipher version
           features := static.features version, ends := static.ends version, ways := ?_
           drains := ?_, noDefault := ?_, fnekNames := (fillInVersionSupport_kept _ _ _).1 }
  · rw [fillInVersionSupport_other (by decide)]
    exact ⟨some (.mod 0 0), rfl, .inr ⟨0, rfl⟩⟩
  · intro m k tn among f isFunc
    rw [fill_mod] at among
    obtain ⟨-, rfl⟩ := way m k tn among
    exact ⟨2, (Option.some.inj isFunc).symm⟩
  · intro m k tn among x leads
    rw [fill_mod] at among
    obtain ⟨rfl, rfl⟩ := way m k tn among
    exact .inl ⟨(Option.some.inj leads).symm, rfl⟩
  · intro n supplier tn among
    simp only [suppliers, List.mem_cons, List.not_mem_nil, or_false] at supplier
    rcases supplier with rfl | rfl | rfl <;>
    · rw [fill_mod] at among
      exact absurd (way _ _ tn among).1 (by decide)
  · intro n among
    rw [(fillInVersionSupport_kept _ _ _).2]
    simp only [suppliers, List.mem_cons, List.not_mem_nil, or_false] at among
    rcases among with rfl | rfl | rfl | rfl | rfl <;> rfl

/-! ## Termination -/

/-- No node insists on the terminal, and only the first node of the module has implicit
transitions. -/
def Calm (nodes : NodeId → MountNode) : Prop := ∀ n, (nodes n).flags.stdinRequired = false ∧
  ((nodes n).flags.allowImplicitTransition = true → n = .mod 0 0)

theorem calm_static (n : NodeId) : (staticNode n).flags.stdinRequired = false ∧
    (staticNode n).flags.allowImplicitTransition = false := by
  cases n <;> exact ⟨rfl, rfl⟩

theorem calm_of_static (static : Static nodes) (modules : ∀ m k,
    (nodes (.mod m k)).flags.stdinRequired = false ∧
      ((nodes (.mod m k)).flags.allowImplicitTransition = true → NodeId.mod m k = .mod 0 0)) :
    Calm nodes := by
  have calm : ∀ n, nodes n = staticNode n ∨ n = .select →
      (nodes n).flags.stdinRequired = false ∧ (nodes n).flags.allowImplicitTransition = false := by
    rintro n (same | rfl)
    · rw [same]
      exact calm_static n
    · rw [static.select]
      exact calm_static .select
  intro n
  by_cases isModule : ∃ m k, n = .mod m k
  · obtain ⟨m, k, rfl⟩ := isModule
    exact modules m k
  · have kind : nodes n = staticNode n ∨ n = .select := by
      by_cases isSelect : n = .select
      · exact .inr isSelect
      · exact .inl (static.same n isSelect fun m k same => isModule ⟨m, k, same⟩)
    refine ⟨(calm n kind).1, fun implicit => ?_⟩
    rw [(calm n kind).2] at implicit
    cases implicit

theorem calm_passphrase (env : MountEnv) : Calm (passphraseExited env) := by
  apply calm_of_static (static_passphrase env)
  intro m k
  rcases m with _ | m
  · rcases k with _ | _ | _ | _ | _ | k
    · exact ⟨rfl, fun _ => rfl⟩
    all_goals exact ⟨rfl, fun h => by cases h⟩
  · exact ⟨rfl, fun h => by cases h⟩

theorem calm_linear (env : MountEnv) (aliases : List CStr) (name : CStr) :
    Calm (linearExited env aliases name) := by
  apply calm_of_static (static_linear env aliases name)
  intro m k
  rcases m with _ | m
  · rcases k with _ | k
    · exact ⟨rfl, fun _ => rfl⟩
    · exact ⟨rfl, fun h => by cases h⟩
  · exact ⟨rfl, fun h => by cases h⟩

/-- The graph is in order when the evaluation starts. -/
theorem worldOk_start (static : Static nodes) (calm : Calm nodes) (version : UInt32)
    (stack : List (Option CStr)) (ext : MountExt) :
    WorldOk (fillInVersionSupport version nodes) ⟨fillInVersionSupport version nodes, stack, ext⟩ := by
  intro n
  obtain ⟨tl, suggested, fields⟩ := fillInVersionSupport_fields version nodes n
  refine ⟨rfl, rfl, ?_, ?_, ?_⟩
  · change (fillInVersionSupport version nodes n).flags.stdinRequired = false
    rw [fields]
    exact (calm n).1
  · change (fillInVersionSupport version nodes n).flags.allowImplicitTransition = true → _
    rw [fields]
    exact (calm n).2
  · have same : n ∉ versioned → n ≠ .select → (∀ m k, n ≠ .mod m k) →
        (fillInVersionSupport version nodes n).tl = (staticNode n).tl := by
      intro other noSelect noModule
      rw [fillInVersionSupport_other other, static.same n noSelect noModule]
    have filename : n = .fnekSig ∨ n = .enableFilenameCrypto →
        (fillInVersionSupport version nodes n).tl = (staticNode n).tl := by
      intro here
      rw [fillInVersionSupport_filename here, static.same n]
      · rcases here with rfl | rfl <;> decide
      · rcases here with rfl | rfl <;> simp
    change TransitionsOk _ n (fillInVersionSupport version nodes n).tl
    cases n with
    | root => exact ⟨.cipher, .inl rfl, same (by decide) (by decide) (by simp)⟩
    | anotherKey => exact ⟨.cipher, .inl rfl, same (by decide) (by decide) (by simp)⟩
    | keyBytes =>
      rw [same (by decide) (by decide) (by simp)]
      exact fun tn among => by cases among
    | fnekSig => exact ⟨.end_, filename (.inl rfl)⟩
    | enableFilenameCrypto => exact ⟨.fnekSig, filename (.inr rfl)⟩
    | _ => rfl

/-- The measure of an evaluation. -/
def measure (linear : Bool) : Config NodeId Callback MountExt → ℕ
  | .at n s => 32 * supply s + rank linear s n + 1
  | _ => 0

theorem rank_lt (linear : Bool) (s : MountState) (n : NodeId) : rank linear s n < 32 := by
  refine (rank_le linear s n).trans_lt ?_
  unfold height depthToEnd
  split
  all_goals first | decide | (split_ifs <;> decide) | (split <;> decide)

/-- An evaluation of a graph with one key module terminates if it stays clear. -/
theorem terminates_of_clear {linear : Bool} (ways : KeyWays g mods linear) {n : NodeId}
    {s : MountState} (inv : Inv g n s) (clear : ∀ m t,
      Reaches (evalStep (mountCall (moduleCalls mods))) (.at n s) (.at m t) →
        StaysClear linear m t) :
    Machine.Terminates (evalStep (mountCall (moduleCalls mods))) (.at n s) := by
  refine Machine.terminates_of_measure (wellFounded_lt : WellFounded ((· < ·) : ℕ → ℕ → Prop))
    (measure linear)
    (I := fun c => Reaches (evalStep (mountCall (moduleCalls mods))) (.at n s) c ∧
      ∀ m t, c = .at m t → Inv g m t) ?_ ⟨.refl, ?_⟩
  · rintro a b ⟨reached, invariant⟩ stepped
    cases a with
    | «at» m t =>
      have reached' := reached.tail stepped
      cases b with
      | «at» m' t' =>
        obtain ⟨inv', advances⟩ := advance ways (invariant m t rfl) (clear m t reached) stepped
        refine ⟨⟨reached', ?_⟩, ?_⟩
        · rintro _ _ ⟨⟩
          exact inv'
        · have := rank_lt linear t' m'
          simp only [measure]
          rcases advances with less | ⟨le, less⟩ <;> omega
      | done rc last t' => exact ⟨⟨reached', fun _ _ h => by cases h⟩, Nat.succ_pos _⟩
      | stopped why => exact ⟨⟨reached', fun _ _ h => by cases h⟩, Nat.succ_pos _⟩
    | done rc last t => cases stepped
    | stopped why => cases stepped
  · rintro _ _ ⟨⟩
    exact inv

theorem inv_start (static : Static nodes) (calm : Calm nodes) {version : UInt32} {s : MountState}
    (filled : s.world.nodes = fillInVersionSupport version nodes) (verbosity : s.verbosity = 0) :
    Inv (fillInVersionSupport version nodes) .root s := by
  have world : WorldOk (fillInVersionSupport version nodes) s.world := by
    have start := worldOk_start static calm version s.world.stack s.world.ext
    rw [← filled] at start ⊢
    exact start
  refine ⟨world, verbosity, ?_, fun _ _ => ?_, fun h => by cases h⟩
  · obtain ⟨tl, suggested, fields⟩ :=
      fillInVersionSupport_fields version nodes .enableFilenameCrypto
    rw [EvalState.node, filled, fields, static.same _ (by decide) (by simp)]
    rfl
  · rw [EvalState.node, filled, fillInVersionSupport_filename (.inl rfl),
      static.same _ (by decide) (by simp)]
    rfl

/-- **Termination.**  With the passphrase module as the only key module and verbosity 0, every
evaluation of the mount graph terminates whose steps stay clear: filename encryption is not asked for
without a value while there is no further signature for it, the signature is not missing while an
entry is called `default`, and no key is left for a module without parameters. -/
theorem evaluation_terminates (env : MountEnv) (version : UInt32) (loaded : Bool)
    (nvps : List NameValPair) (inputs : List (Except {rc : ℤ // rc < 0} CStr))
    (built : passphraseOnly env version loaded = .ok mods) (quiet : getVerbosity nvps = .ok 0)
    (clear : ∀ n s, Reaches (evalStep (mountCall (moduleCalls mods)))
      (evalStart .root (mountState version mods nvps inputs)) (.at n s) →
        StaysClear (!supports version versioningPassphrase) n s) :
    Machine.Terminates (evalStep (mountCall (moduleCalls mods)))
      (evalStart .root (mountState version mods nvps inputs)) := by
  unfold evalStart at clear ⊢
  rw [show (mountState version mods nvps inputs).nvps = nvps from rfl, quiet] at clear ⊢
  unfold passphraseOnly at built
  split_ifs at built with supported isLoaded
  · obtain rfl := Except.ok.inj built
    rw [supported] at clear
    refine terminates_of_clear (keyWays_passphrase env version) ?_ clear
    exact inv_start (static_passphrase env) (calm_passphrase env)
      (congrArg (fillInVersionSupport version) (setExit_passphrase env)) rfl
  · obtain rfl := Except.ok.inj built
    rw [Bool.not_eq_true] at supported
    rw [supported] at clear
    refine terminates_of_clear (keyWays_linear env [lit "passphrase"] version) ?_ clear
    exact inv_start (static_linear env _ _) (calm_linear env _ _)
      (congrArg (fillInVersionSupport version) (setExit_linear env _ _)) rfl

theorem mountState_passphrase (env : MountEnv) (version : UInt32) (nvps : List NameValPair)
    (inputs : List (Except {rc : ℤ // rc < 0} CStr)) :
    mountState version [passphraseModule env 0] nvps inputs =
      { world := ⟨fillInVersionSupport version (passphraseExited env), [none], {}⟩
        nvps := nvps, verbosity := 0, hasGetString := true, inputs := inputs } := by
  unfold mountState mountNodes
  rw [setExit_passphrase]

theorem clear_of_other {linear : Bool} {n : NodeId} {s : MountState}
    (other : n ∉ [NodeId.enableFilenameCrypto, .fnekSig, .anotherKey]) : StaysClear linear n s := by
  simp only [List.mem_cons, List.not_mem_nil, or_false, not_or] at other
  exact ⟨fun h => absurd h other.1, fun h => absurd h other.2.1, fun h => absurd h other.2.2⟩

theorem clear_of_signature {linear : Bool} {s : MountState} {v : CStr}
    (given : (valued .fnekSig s).val = some v) (real : v ≠ lit "NULL") :
    StaysClear linear .fnekSig s := by
  refine ⟨fun h => (by cases h), fun _ none_ => ?_, fun h => (by cases h)⟩
  rcases none_ with absent | null
  · rw [given] at absent
    cases absent
  · exact absurd (Option.some.inj (given.symm.trans null)) real

/-- The options of a mount with an existing key, which also encrypts filenames. -/
def fnekOptions : List NameValPair :=
  [⟨"verbosity", some (lit "0"), false⟩, ⟨"sig", some (lit "d395309aaad4de06"), false⟩,
    ⟨"ecryptfs_cipher", some (lit "aes"), false⟩, ⟨"ecryptfs_key_bytes", some (lit "16"), false⟩,
    ⟨"ecryptfs_fnek_sig", some (lit "d395309aaad4de06"), false⟩]

set_option maxRecDepth 4000 in
/-- A mount with all signatures given terminates. -/
theorem evaluation_terminates_fnek :
    Machine.Terminates (evalStep (mountCall (moduleCalls [passphraseModule plainEnv 0])))
      (evalStart .root (mountState 0x101 [passphraseModule plainEnv 0] fnekOptions [])) := by
  refine evaluation_terminates plainEnv 0x101 false fnekOptions [] rfl rfl ?_
  rw [mountState_passphrase]
  intro n s reached
  -- the run stands at six nodes
  rcases Machine.reached_of_step reached rfl with same | reached
  · obtain ⟨rfl, rfl⟩ := Config.at.inj same
    exact clear_of_other (by decide)
  rcases Machine.reached_of_step reached rfl with same | reached
  · obtain ⟨rfl, rfl⟩ := Config.at.inj same
    exact clear_of_other (by decide)
  rcases Machine.reached_of_step reached rfl with same | reached
  · obtain ⟨rfl, rfl⟩ := Config.at.inj same
    exact clear_of_other (by decide)
  rcases Machine.reached_of_step reached rfl with same | reached
  · obtain ⟨rfl, rfl⟩ := Config.at.inj same
    exact clear_of_other (by decide)
  rcases Machine.reached_of_step reached rfl with same | reached
  · obtain ⟨rfl, rfl⟩ := Config.at.inj same
    exact clear_of_signature rfl (by decide)
  rcases Machine.reached_of_step reached rfl with same | reached
  · obtain ⟨rfl, rfl⟩ := Config.at.inj same
    exact clear_of_other (by decide)
  rcases Relation.ReflTransGen.cases_head reached with same | ⟨d, stepped, -⟩
  · cases same
  · cases stepped

/-! ## An evaluation without end -/

/-- A node without a value that finds none either. -/
structure Bare (node : MountNode) (nvps : List NameValPair) : Prop where
  val : node.val = none
  explicit : node.flags.allowImplicitTransition = false
  stdin : node.flags.stdinRequired = false
  absent : ∀ name ∈ node.mntOptNames, ¬ Pending name nvps
  noDefault : node.defaultVal = none

/-- The question of filename encryption is answered by yes once and for all, and there is no
signature for it. -/
structure Stuck (w : MountWorld) (nvps : List NameValPair) : Prop where
  fnek : Bare (w.nodes .fnekSig) nvps
  enable : Bare (w.nodes .enableFilenameCrypto) nvps
  fnekNext : ∃ x, (w.nodes .fnekSig).tl = [defaultTransition (some x) (some .fnekSig)]
  enableNext : (w.nodes .enableFilenameCrypto).tl =
    [defaultTransition (some .end_) (some .enableFilenameCrypto)]
  yes : (w.nodes .enableFilenameCrypto).flags.parameterSet = true
  sig : ∃ sig, stackSig w.stack = .ok (some sig)
  unnamed : ¬ Named (lit "default") nvps

/-- A turn at a bare node with a default transition. -/
theorem goes_bare {mods : List GraphModule} {n m : NodeId} {w w' : MountWorld}
    {nvps : List NameValPair} {x : NodeId} {f : Callback} (bare : Bare (w.nodes n) nvps)
    (only : (w.nodes n).tl = [defaultTransition (some x) (some f)])
    (unnamed : ¬ Named (lit "default") nvps)
    (called : mountCall (moduleCalls mods) f n nvps w = .ok (0, w'))
    (only' : (w'.nodes n).tl = [defaultTransition (some m) (some f)]) :
    Goes (mountCall (moduleCalls mods)) n w nvps m w' nvps := by
  have followed : Followed (mountCall (moduleCalls mods)) n nvps m w w' 0
      (defaultTransition (some x) (some f)) nullTok 0 :=
    ⟨transition_only only, called, by decide, nextToken_first only'⟩
  refine goes_default (allocs_nothing bare.val bare.explicit bare.stdin bare.absent
    (.inl bare.noDefault)) ?_ rfl (fun i low => absurd low (Nat.not_lt_zero i)) (by decide)
    (by decide) followed
  intro u among
  rw [only, List.mem_singleton] at among
  rw [among, bare.val]
  exact ⟨⟨_, rfl, unnamed⟩, by simp [defaultTransition]⟩

theorem Bare.of_val {node node' : MountNode} {nvps : List NameValPair} (bare : Bare node nvps)
    (names : node'.mntOptNames = node.mntOptNames) (default_ : node'.defaultVal = node.defaultVal)
    (val : node'.val = none) (explicit : node'.flags.allowImplicitTransition = false)
    (stdin : node'.flags.stdinRequired = false) : Bare node' nvps :=
  ⟨val, explicit, stdin, names ▸ bare.absent, default_ ▸ bare.noDefault⟩

/-- From a stuck question two turns lead back to it. -/
theorem Stuck.again {mods : List GraphModule} {w : MountWorld} {nvps : List NameValPair}
    (stuck : Stuck w nvps) : ∃ w₁ w₂,
      Goes (mountCall (moduleCalls mods)) .enableFilenameCrypto w nvps .fnekSig w₁ nvps ∧
      Goes (mountCall (moduleCalls mods)) .fnekSig w₁ nvps .enableFilenameCrypto w₂ nvps ∧
      Stuck w₂ nvps := by
  obtain ⟨x, fnekNext⟩ := stuck.fnekNext
  obtain ⟨sig, sigEq⟩ := stuck.sig
  -- the answer links the signature in again
  obtain ⟨w₁, called, stack⟩ : ∃ w₁, getEnableFilenameCrypto .enableFilenameCrypto w = .ok (0, w₁) ∧
      w₁.stack = w.stack := by
    unfold getEnableFilenameCrypto
    simp only [stuck.yes, or_true, if_true]
    generalize found : stackSig _ = first
    obtain rfl : first = .ok (some sig) := found.symm.trans sigEq
    exact ⟨_, rfl, rfl⟩
  obtain ⟨-, back⟩ | ⟨no, -⟩ := getEnableFilenameCrypto_cases fnekNext stuck.enableNext called
  swap
  · exact absurd (.inr stuck.yes) no
  obtain ⟨suggested, fnek₁⟩ := back.fnek
  have bare₁ : Bare (w₁.nodes .fnekSig) nvps := by
    rw [fnek₁]
    exact stuck.fnek.of_val rfl rfl stuck.fnek.val stuck.fnek.explicit stuck.fnek.stdin
  -- and the missing signature links the question in again
  obtain ⟨w₂, called₂, stack₂⟩ : ∃ w₂, fnekSigCallback .fnekSig w₁ = .ok (0, w₂) ∧
      w₂.stack = w₁.stack := by
    unfold fnekSigCallback
    simp only [bare₁.val]
    exact ⟨_, rfl, rfl⟩
  have fnekTl : (w₁.nodes .fnekSig).tl = [defaultTransition (some .end_) (some .fnekSig)] := by
    rw [fnek₁]
  have enableTl : (w₁.nodes .enableFilenameCrypto).tl =
      [defaultTransition (some .fnekSig) (some .enableFilenameCrypto)] := by
    rw [back.enable]
  obtain ⟨-, ⟨-, again⟩ | ⟨some_, -⟩⟩ := fnekSigCallback_cases fnekTl enableTl called₂
  swap
  · exact absurd (.inl bare₁.val) some_
  refine ⟨w₁, w₂, goes_bare stuck.enable stuck.enableNext stuck.unnamed called enableTl,
    goes_bare bare₁ fnekTl stuck.unnamed called₂ (by rw [again.fnek]), ?_, ?_, ?_, ?_, ?_, ?_, ?_⟩
  · rw [again.fnek]
    exact bare₁.of_val rfl rfl bare₁.val rfl rfl
  · rw [again.enable, back.enable]
    exact stuck.enable.of_val rfl rfl rfl stuck.enable.explicit stuck.enable.stdin
  · exact ⟨_, by rw [again.fnek]⟩
  · rw [again.enable]
  · rw [again.enable, back.enable]
    exact stuck.yes
  · exact ⟨sig, by rw [stack₂, stack, sigEq]⟩
  · exact stuck.unnamed

/-- A stuck question is asked forever. -/
theorem not_terminates_of_stuck {mods : List GraphModule} {s : MountState}
    (verbosity : s.verbosity = 0) (stuck : Stuck s.world s.nvps) :
    ¬ Machine.Terminates (evalStep (mountCall (moduleCalls mods))) (.at .enableFilenameCrypto s) := by
  refine Machine.not_terminates_of_trap (T := fun c => ∃ s : MountState, c = .at .enableFilenameCrypto s ∧
    s.verbosity = 0 ∧ Stuck s.world s.nvps) ?_ ⟨s, rfl, verbosity, stuck⟩
  rintro _ ⟨s, rfl, verbosity, stuck⟩
  obtain ⟨w₁, w₂, goes, comes, again⟩ := @Stuck.again mods _ _ stuck
  obtain ⟨t, stepped, there⟩ := goes s ⟨rfl, rfl, verbosity⟩
  obtain ⟨u, stepped', there'⟩ := comes t there
  refine ⟨.at .enableFilenameCrypto u, .tail (.single stepped) stepped', u, rfl, there'.verbosity, ?_⟩
  rw [there'.world, there'.nvps]
  exact again

/-- The options of a mount with an existing key that asks for filename encryption without giving a
signature for it. -/
def filenameOptions : List NameValPair :=
  [⟨"verbosity", some (lit "0"), false⟩, ⟨"sig", some (lit "d395309aaad4de06"), false⟩,
    ⟨"ecryptfs_cipher", some (lit "aes"), false⟩, ⟨"ecryptfs_key_bytes", some (lit "16"), false⟩,
    ⟨"ecryptfs_enable_filename_crypto", none, false⟩]

set_option maxRecDepth 4000 in
/-- Filename encryption is asked for and no signature is given: the two nodes follow each other
forever. -/
theorem evaluation_without_end : passphraseOnly plainEnv 0x101 false =
      .ok [passphraseModule plainEnv 0] ∧ getVerbosity filenameOptions = .ok 0 ∧
    ¬ Machine.Terminates (evalStep (mountCall (moduleCalls [passphraseModule plainEnv 0])))
      (evalStart .root (mountState 0x101 [passphraseModule plainEnv 0] filenameOptions [])) := by
  refine ⟨rfl, rfl, fun terminates => ?_⟩
  rw [mountState_passphrase] at terminates
  have run : ∃ s : MountState, Reaches
      (evalStep (mountCall (moduleCalls [passphraseModule plainEnv 0])))
      (evalStart .root
        { world := ⟨fillInVersionSupport 0x101 (passphraseExited plainEnv), [none], {}⟩
          nvps := filenameOptions, verbosity := 0, hasGetString := true, inputs := [] })
      (.at .enableFilenameCrypto s) ∧ s.verbosity = 0 ∧ Stuck s.world s.nvps := by
    refine ⟨_, .head rfl (.head rfl (.head rfl (.head rfl (.head rfl (.head rfl (.head rfl .refl)))))),
      rfl, ⟨rfl, rfl, rfl, ?_, rfl⟩, ⟨rfl, rfl, rfl, ?_, rfl⟩, ⟨_, rfl⟩, rfl, rfl, ⟨_, rfl⟩, ?_⟩
    · decide
    · decide
    · unfold Named
      decide
  obtain ⟨s, reached, verbosity, stuck⟩ := run
  exact not_terminates_of_stuck verbosity stuck (terminates.of_reaches reached)

end Ecryptfs
