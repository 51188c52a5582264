import Ecryptfs.Graph.Invariant
import Ecryptfs.Graph.Queue
import Ecryptfs.Mount.Tail
import Ecryptfs.Mount.Termination

/-!
# The nodes of filename encryption

The turns at `fnekSig` and `enableFilenameCrypto`, which the callbacks of either one link to each other.
Without a signature the question is linked in behind it; the answer yes links the signature in behind
the question and is cleared.  A list entry `default` makes the callbacks be called several times in one
turn, so that the two nodes lose their way to the end.
-/

namespace Ecryptfs

variable {mods : List GraphModule} {w w' w₁ w₂ : MountWorld} {n m : NodeId} {s t s' : MountState}
  {C : List NodeId} {code : ℤ}

/-! ## The two nodes -/

/-- A node that takes its value from one option of the list, and leads to a node in `C` by the
callback `f`. -/
structure OptionNode (C : List NodeId) (option : String) (f : Callback) (node : MountNode) : Prop where
  names : node.mntOptNames = [lit option]
  default : node.defaultVal = none
  explicit : node.flags.allowImplicitTransition = false
  stdin : node.flags.stdinRequired = false
  tl : ∃ x ∈ C, node.tl = [defaultTransition (some x) (some f)]

theorem OptionNode.next {option : String} {f : Callback} {node : MountNode}
    (isOption : OptionNode C option f node) {tn : TransitionNode NodeId Callback} (among : tn ∈ node.tl)
    (leads : tn.nextToken = some m) : m ∈ C := by
  obtain ⟨x, inside, tl⟩ := isOption.tl
  rw [tl, List.mem_singleton] at among
  rw [among] at leads
  exact Option.some.inj leads ▸ inside

/-- The nodes of filename encryption, which lead to nodes in `C`. -/
structure Filename (C : List NodeId) (w : MountWorld) : Prop where
  fnek : OptionNode C "ecryptfs_fnek_sig" .fnekSig (w.nodes .fnekSig)
  enable : OptionNode C "ecryptfs_enable_filename_crypto" .enableFilenameCrypto
    (w.nodes .enableFilenameCrypto)

/-- The nodes behind the features. -/
def lastNodes : List NodeId := [.fnekSig, .enableFilenameCrypto, .end_]

/-- The two nodes of filename encryption, with no way out. -/
def questionNodes : List NodeId := [.fnekSig, .enableFilenameCrypto]

/-- The nodes that the two callbacks link in are there. -/
def HasQuestion (C : List NodeId) : Prop := .fnekSig ∈ C ∧ .enableFilenameCrypto ∈ C

theorem Filename.of_nodes (nodes : Filename C w) (fnek : w'.nodes .fnekSig = w.nodes .fnekSig)
    (enable : w'.nodes .enableFilenameCrypto = w.nodes .enableFilenameCrypto) : Filename C w' :=
  ⟨fnek ▸ nodes.fnek, enable ▸ nodes.enable⟩

/-- Only the values and the flag `parameterSet` of the nodes may change. -/
theorem OptionNode.retrieved {option : String} {f : Callback} {node : MountNode}
    (isOption : OptionNode C option f node) (v : Option CStr) (set : Bool) :
    OptionNode C option f { node with val := v, flags := { node.flags with parameterSet := set } } :=
  ⟨isOption.names, isOption.default, isOption.explicit, isOption.stdin, isOption.tl⟩

theorem optionNode_valued {option : String} {f : Callback} (isOption : OptionNode C option f (s.node n)) :
    OptionNode C option f (valued n s) := by
  unfold valued
  split_ifs
  · exact isOption
  · obtain ⟨v, set, fields⟩ := (retrieveVal_spec (s.node n) s.nvps).fields
    rw [fields]
    exact isOption.retrieved v set

/-- The value and the flags that a node of one option gets depend on the queue of the option only. -/
theorem valued_of_queue {option : String} {f : Callback}
    (isOption : OptionNode C option f (s.node n)) (open_ : (s.node n).val = none) :
    valued n s = match queue (lit option) s.nvps with
      | [] => s.node n
      | value :: _ => (s.node n).receive value := by
  unfold valued
  rw [open_, Option.isSome_none, if_neg Bool.false_ne_true]
  cases first : queue (lit option) s.nvps with
  | nil =>
    rw [retrieveVal_nothing ?_ (.inl isOption.default)]
    rw [isOption.names, List.forall_mem_singleton, ← queue_eq_nil]
    exact first
  | cons value rest =>
    obtain ⟨nvps', retrieved, -⟩ := retrieveVal_entry [] ⟨rfl, fun _ => rfl⟩ isOption.names
      (fun x none_ => by cases none_) first
    rw [retrieved]

theorem receive_congr {node node' : MountNode} (val : node'.val = node.val)
    (flags : node'.flags = node.flags) (value : Option CStr) :
    (node'.receive value).val = (node.receive value).val ∧
      (node'.receive value).flags = (node.receive value).flags := by
  unfold ParamNode.receive
  cases realValue value with
  | none => exact ⟨val, by rw [flags]⟩
  | some v => exact ⟨rfl, flags⟩

/-- The answer to a question stays when its node is linked elsewhere and other options are taken from
the list. -/
theorem valued_same {option : String} {f : Callback} {C' : List NodeId}
    (before : OptionNode C option f (s.node n)) (after : OptionNode C' option f (s'.node n))
    (open_ : (s.node n).val = none) (val : (s'.node n).val = (s.node n).val)
    (flags : (s'.node n).flags = (s.node n).flags)
    (same : queue (lit option) s'.nvps = queue (lit option) s.nvps) :
    (valued n s').val = (valued n s).val ∧ (valued n s').flags = (valued n s).flags := by
  rw [valued_of_queue before open_, valued_of_queue after (val.trans open_), same]
  cases queue (lit option) s.nvps with
  | nil => exact ⟨val, flags⟩
  | cons value rest => exact receive_congr val flags value

/-! ## Turns of the two nodes -/

/-- What `alloc_and_get_val` does at a node of one option: only this node gets a value, from the queue
of the option. -/
structure Took (option : String) (n : NodeId) (s t : MountState) : Prop where
  here : t.node n = valued n s
  other : ∀ k, k ≠ n → t.node k = s.node k
  names : t.nvps.map NameValPair.name = s.nvps.map NameValPair.name
  queues : ∀ x, x ≠ lit option → queue x t.nvps = queue x s.nvps
  stack : t.world.stack = s.world.stack
  verbosity : t.verbosity = s.verbosity

theorem OptionNode.took {option : String} {f : Callback} {rc : ℤ}
    (isOption : OptionNode C option f (s.node n)) (verbosity : s.verbosity = 0)
    (h : allocAndGetVal n s = .ok (rc, t)) : Took option n s t := by
  by_cases given : (s.node n).val.isSome
  · rw [allocAndGetVal_given given] at h
    obtain ⟨-, rfl⟩ := Prod.mk.inj (Except.ok.inj h)
    refine ⟨?_, fun _ _ => rfl, rfl, fun _ _ => rfl, rfl, rfl⟩
    rw [valued, if_pos given]
  · have open_ := Option.not_isSome_iff_eq_none.mp given
    rw [allocAndGetVal_quiet ⟨verbosity, isOption.stdin⟩ isOption.explicit open_] at h
    obtain ⟨-, rfl⟩ := Prod.mk.inj (Except.ok.inj h)
    refine ⟨?_, fun k other => ?_, names_retrieve n s, fun x other => ?_, rfl, rfl⟩
    · rw [valued, if_neg given, node_retrieve, if_pos rfl]
    · rw [node_retrieve, if_neg other]
    · refine queue_retrieveVal (fun named => other ?_)
      rw [isOption.names] at named
      exact List.mem_singleton.mp named

theorem Took.filename {option : String} (took : Took option n s t) (nodes : Filename C s.world)
    (here : n = .fnekSig ∨ n = .enableFilenameCrypto) : Filename C t.world := by
  rcases here with rfl | rfl
  · refine ⟨?_, ?_⟩
    · change OptionNode C _ _ (t.node .fnekSig)
      rw [took.here]
      exact optionNode_valued nodes.fnek
    · change OptionNode C _ _ (t.node .enableFilenameCrypto)
      rw [took.other _ (by decide)]
      exact nodes.enable
  · refine ⟨?_, ?_⟩
    · change OptionNode C _ _ (t.node .fnekSig)
      rw [took.other _ (by decide)]
      exact nodes.fnek
    · change OptionNode C _ _ (t.node .enableFilenameCrypto)
      rw [took.here]
      exact optionNode_valued nodes.enable

/-! ## The callbacks of the two nodes -/

/-- A signature for filenames is among the parameters of the mount. -/
def FnekPushed (stack : List (Option CStr)) : Prop := ∃ sig, param "ecryptfs_fnek_sig=" sig ∈ stack

theorem FnekPushed.cons {stack : List (Option CStr)} (pushed : FnekPushed stack) (v : Option CStr) :
    FnekPushed (v :: stack) := by
  obtain ⟨sig, among⟩ := pushed
  exact ⟨sig, List.mem_cons_of_mem v among⟩

theorem FnekPushed.text {stack : List (Option CStr)} (pushed : FnekPushed stack) :
    ∃ v ∈ stack, ∃ u ∈ v, lit "ecryptfs_fnek_sig=" <+: u := by
  obtain ⟨sig, among⟩ := pushed
  exact ⟨_, among, _, rfl, List.prefix_append _ _⟩

/-- The question is linked behind the signature, which is still missing, and its answer stays. -/
structure Asks (C : List NodeId) (w w' : MountWorld) : Prop where
  nodes : Filename C w'
  noSig : NoSignature (w'.nodes .fnekSig)
  leads : (w'.nodes .fnekSig).tl = [defaultTransition (some .enableFilenameCrypto) (some .fnekSig)]
  val : (w'.nodes .enableFilenameCrypto).val = (w.nodes .enableFilenameCrypto).val
  flags : (w'.nodes .enableFilenameCrypto).flags = (w.nodes .enableFilenameCrypto).flags
  end_ : w'.nodes .end_ = w.nodes .end_

theorem Asks.trans (first : Asks C w w₁) (second : Asks C w₁ w₂) : Asks C w w₂ :=
  ⟨second.nodes, second.noSig, second.leads, second.val.trans first.val,
    second.flags.trans first.flags, second.end_.trans first.end_⟩

/-- Without a signature the callback links the question in; once it is linked in already, there is no
way out of the two nodes any more. -/
theorem fnekSigCallback_asks (question : HasQuestion C) (nodes : Filename C w)
    (noSig : NoSignature (w.nodes .fnekSig)) (h : fnekSigCallback .fnekSig w = .ok (code, w')) :
    code = 0 ∧ Asks C w w' ∧ ((w.nodes .fnekSig).tl =
      [defaultTransition (some .enableFilenameCrypto) (some .fnekSig)] → Filename questionNodes w') := by
  obtain ⟨x, inside, fnekTl⟩ := nodes.fnek.tl
  obtain ⟨y, -, enableTl⟩ := nodes.enable.tl
  obtain ⟨rfl, ⟨-, spliced⟩ | ⟨some_, -⟩⟩ := fnekSigCallback_cases fnekTl enableTl h
  swap
  · exact absurd noSig some_
  have linked : ∀ D, x ∈ D → .enableFilenameCrypto ∈ D → Filename D w' := by
    intro D first second
    refine ⟨?_, ?_⟩
    · rw [spliced.fnek]
      exact ⟨nodes.fnek.names, nodes.fnek.default, rfl, rfl, _, second, rfl⟩
    · rw [spliced.enable]
      exact ⟨nodes.enable.names, nodes.enable.default, nodes.enable.explicit, nodes.enable.stdin, _,
        first, rfl⟩
  refine ⟨rfl, ⟨linked C inside question.2, ?_, ?_, ?_, ?_, ?_⟩, fun again => ?_⟩
  · rw [spliced.fnek]
    exact noSig
  · rw [spliced.fnek]
  · rw [spliced.enable]
  · rw [spliced.enable]
  · exact spliced.other _ (by decide) (by decide)
  · obtain rfl : x = .enableFilenameCrypto := by
      rw [fnekTl] at again
      simpa [defaultTransition] using again
    exact linked questionNodes (by decide) (by decide)

theorem fnekSigCallback_ends (n : NodeId) (w : MountWorld) :
    ∃ w', fnekSigCallback n w = .ok (0, w') := by
  unfold fnekSigCallback
  dsimp only
  split
  · exact ⟨_, rfl⟩
  · split_ifs
    · exact ⟨_, rfl⟩
    · exact ⟨_, rfl⟩

/-- The callback pushes the signature or leaves the stack alone. -/
theorem fnekSigCallback_stack (h : fnekSigCallback n w = .ok (code, w')) :
    (NoSignature (w.nodes n) ∧ w'.stack = w.stack) ∨
      ∃ sig, w'.stack = param "ecryptfs_fnek_sig=" sig :: w.stack := by
  unfold fnekSigCallback at h
  simp only at h
  split at h
  · next absent =>
    obtain ⟨-, rfl⟩ := Prod.mk.inj (Except.ok.inj h)
    exact .inl ⟨.inl absent, rfl⟩
  · next v given =>
    split_ifs at h with null
    · obtain ⟨-, rfl⟩ := Prod.mk.inj (Except.ok.inj h)
      exact .inl ⟨.inr (given.trans (congrArg some null)), rfl⟩
    · obtain ⟨-, rfl⟩ := Prod.mk.inj (Except.ok.inj h)
      exact .inr ⟨v, rfl⟩

/-- The answer to the question changes no parameter, and is wrong if it is neither yes nor no. -/
theorem getEnableFilenameCrypto_spec (h : getEnableFilenameCrypto n w = .ok (code, w')) :
    w'.stack = w.stack ∧ (¬ SaysYes (w.nodes n) → isYes (w.nodes n).val 0 ≠ 0 → code = wrongValue) := by
  unfold getEnableFilenameCrypto at h
  simp only at h
  split_ifs at h with yes wrong
  · split at h
    · cases h
    · obtain ⟨-, rfl⟩ := Prod.mk.inj (Except.ok.inj h)
      exact ⟨rfl, fun no => absurd yes no⟩
    · obtain ⟨-, rfl⟩ := Prod.mk.inj (Except.ok.inj h)
      exact ⟨rfl, fun no => absurd yes no⟩
  · obtain ⟨rfl, rfl⟩ := Prod.mk.inj (Except.ok.inj h)
    exact ⟨rfl, fun _ _ => rfl⟩
  · obtain ⟨-, rfl⟩ := Prod.mk.inj (Except.ok.inj h)
    refine ⟨rfl, fun _ other => ?_⟩
    rw [not_or] at yes
    omega

/-- The answer yes links the signature in again and is cleared; every other answer is only cleared. -/
theorem getEnableFilenameCrypto_keeps (question : HasQuestion C) (nodes : Filename C w)
    (h : getEnableFilenameCrypto .enableFilenameCrypto w = .ok (code, w')) :
    Filename C w' ∧ w'.nodes .end_ = w.nodes .end_ ∧ (SaysYes (w.nodes .enableFilenameCrypto) →
      (w'.nodes .enableFilenameCrypto).val = none ∧ (w'.nodes .enableFilenameCrypto).tl =
        [defaultTransition (some .fnekSig) (some .enableFilenameCrypto)]) := by
  obtain ⟨x, -, fnekTl⟩ := nodes.fnek.tl
  obtain ⟨y, inside, enableTl⟩ := nodes.enable.tl
  have enable := nodes.enable
  obtain ⟨-, spliced⟩ | ⟨no, cleared⟩ := getEnableFilenameCrypto_cases fnekTl enableTl h
  · obtain ⟨suggested, fnek⟩ := spliced.fnek
    refine ⟨⟨?_, ?_⟩, spliced.other _ (by decide) (by decide), fun _ => ⟨?_, ?_⟩⟩
    · rw [fnek]
      exact ⟨nodes.fnek.names, nodes.fnek.default, nodes.fnek.explicit, nodes.fnek.stdin, _, inside, rfl⟩
    · rw [spliced.enable]
      exact ⟨enable.names, enable.default, enable.explicit, enable.stdin, _, question.1, rfl⟩
    · rw [spliced.enable]
    · rw [spliced.enable]
  · refine ⟨⟨?_, ?_⟩, ?_, fun yes => absurd yes no⟩
    · rw [cleared, clearVal_other (by decide)]
      exact nodes.fnek
    · rw [cleared, clearVal_self]
      exact ⟨enable.names, enable.default, enable.explicit, enable.stdin, enable.tl⟩
    · rw [cleared, clearVal_other (by decide)]

/-- The callbacks of the two nodes keep them as they are, and take no signature off the stack. -/
theorem Filename.called {nvps : List NameValPair} (question : HasQuestion C) (nodes : Filename C w)
    (here : n ∈ questionNodes) (called : Called (mountCall (moduleCalls mods)) n nvps w w') :
    Filename C w' ∧ w'.nodes .end_ = w.nodes .end_ ∧ (FnekPushed w.stack → FnekPushed w'.stack) := by
  obtain ⟨tn, among, f, isFunc, code, h⟩ := called
  simp only [questionNodes, List.mem_cons, List.not_mem_nil, or_false] at here
  rcases here with rfl | rfl
  · obtain ⟨x, inside, tl⟩ := nodes.fnek.tl
    obtain ⟨y, -, enableTl⟩ := nodes.enable.tl
    rw [tl, List.mem_singleton] at among
    obtain rfl := Option.some.inj (isFunc.symm.trans (congrArg TransitionNode.transFunc among))
    have h : fnekSigCallback .fnekSig w = .ok (code, w') := h
    have stack : FnekPushed w.stack → FnekPushed w'.stack := by
      intro pushed
      rcases fnekSigCallback_stack h with ⟨-, same⟩ | ⟨sig, more⟩
      · rw [same]
        exact pushed
      · rw [more]
        exact pushed.cons _
    by_cases noSig : NoSignature (w.nodes .fnekSig)
    · obtain ⟨-, asks, -⟩ := fnekSigCallback_asks question nodes noSig h
      exact ⟨asks.nodes, asks.end_, stack⟩
    · obtain ⟨-, ⟨none_, -⟩ | ⟨-, same⟩⟩ := fnekSigCallback_cases tl enableTl h
      · exact absurd none_ noSig
      · exact ⟨nodes.of_nodes (by rw [same]) (by rw [same]), by rw [same], stack⟩
  · obtain ⟨y, -, tl⟩ := nodes.enable.tl
    rw [tl, List.mem_singleton] at among
    obtain rfl := Option.some.inj (isFunc.symm.trans (congrArg TransitionNode.transFunc among))
    have h : getEnableFilenameCrypto .enableFilenameCrypto w = .ok (code, w') := h
    obtain ⟨nodes', end_, -⟩ := getEnableFilenameCrypto_keeps question nodes h
    refine ⟨nodes', end_, fun pushed => ?_⟩
    rw [(getEnableFilenameCrypto_spec h).1]
    exact pushed

/-! ## Without a signature -/

/-- Every list entry `default` calls the callback of the signature once. -/
theorem nvpLoop_asks {nvps es : List NameValPair} (question : HasQuestion C) (nodes : Filename C w)
    (noSig : NoSignature (w.nodes .fnekSig)) :
    ∃ w', nvpLoop (mountCall (moduleCalls mods)) nvps .fnekSig 0 es w = .ok (.go w') ∧
      (w' = w ∧ ¬ Named (lit "default") es ∨ Asks C w w') := by
  induction es generalizing w with
  | nil => exact ⟨w, rfl, .inl ⟨rfl, by simp [Named]⟩⟩
  | cons e es ih =>
    obtain ⟨x, -, tl⟩ := nodes.fnek.tl
    have here : transition w .fnekSig 0 = some (defaultTransition (some x) (some .fnekSig)) := by
      rw [transition, tl]
      rfl
    rw [nvpLoop, here]
    by_cases named : e.name = lit "default"
    · obtain ⟨w₁, called⟩ := fnekSigCallback_ends .fnekSig w
      obtain ⟨-, asks, -⟩ := fnekSigCallback_asks question nodes noSig called
      have called' : transFunc (mountCall (moduleCalls mods)) nullTok (some .fnekSig) .fnekSig nvps w =
          .ok (0, w₁) := called
      obtain ⟨w₂, looped, rest⟩ := ih asks.nodes asks.noSig
      refine ⟨w₂, ?_, .inr ?_⟩
      · simp only [defaultTransition, named, Option.isSome_some, ne_eq, not_true_eq_false, and_false,
          if_false, called']
        exact looped
      · rcases rest with ⟨rfl, -⟩ | more
        · exact asks
        · exact asks.trans more
    · obtain ⟨w₁, looped, rest⟩ := ih nodes noSig
      have skipped : (defaultTransition (some x) (some .fnekSig)).val.isSome ∧
          (defaultTransition (some x) (some .fnekSig)).val ≠ some e.name :=
        ⟨rfl, fun same => named (Option.some.inj same).symm⟩
      refine ⟨w₁, ?_, rest.imp_left fun stays => ⟨stays.1, ?_⟩⟩
      · simp only [if_pos skipped]
        exact looped
      · rw [Named, List.map_cons, List.mem_cons, not_or]
        exact ⟨Ne.symm named, stays.2⟩

/-- **The turn without a signature.**  The question is next; a list entry `default` makes the callback
be called more than once, so that the two nodes only lead to each other. -/
theorem fnekSig_turn (question : HasQuestion C) (nodes : Filename C t.world)
    (noSig : NoSignature (t.node .fnekSig))
    (h : doTransition (mountCall (moduleCalls mods)) .fnekSig t = .ok (0, some m, s')) :
    m = .enableFilenameCrypto ∧ s'.nvps = t.nvps ∧ Asks C t.world s'.world ∧
      (Named (lit "default") t.nvps → Filename questionNodes s'.world) := by
  obtain ⟨x, -, tl⟩ := nodes.fnek.tl
  obtain ⟨w₁, looped, before⟩ := @nvpLoop_asks mods t.world C t.nvps t.nvps question nodes noSig
  obtain ⟨nodes₁, noSig₁, first⟩ : Filename C w₁ ∧ NoSignature (w₁.nodes .fnekSig) ∧
      (w₁ = t.world ∨ Asks C t.world w₁) := by
    rcases before with ⟨rfl, -⟩ | asks
    · exact ⟨nodes, noSig, .inl rfl⟩
    · exact ⟨asks.nodes, asks.noSig, .inr asks⟩
  obtain ⟨y, -, tl₁⟩ := nodes₁.fnek.tl
  obtain ⟨w₂, called⟩ := fnekSigCallback_ends .fnekSig w₁
  obtain ⟨-, asks, trapped⟩ := fnekSigCallback_asks question nodes₁ noSig₁ called
  have other : (t.world.nodes .fnekSig).val ≠ some (lit "default") := by
    rcases noSig with absent | null
    · change (t.node .fnekSig).val ≠ _
      rw [absent]
      simp
    · change (t.node .fnekSig).val ≠ _
      rw [null]
      decide
  -- the first loop tries the only transition, and passes
  have passed : selectLoop (mountCall (moduleCalls mods)) t.nvps .fnekSig maxNumTransitions 0 t.world =
      .ok (.passed w₁) := by
    have here : transition t.world .fnekSig 0 = some (defaultTransition (some x) (some .fnekSig)) := by
      rw [transition, tl]
      rfl
    have noMatch : ¬ ((defaultTransition (some x) (some .fnekSig)).val.isSome ∧
        (defaultTransition (some x) (some .fnekSig)).val = (t.world.nodes .fnekSig).val) :=
      fun same => other same.2.symm
    rw [maxNumTransitions, selectLoop, here]
    simp only [if_neg noMatch, looped]
    refine selectLoop_unnamed_from fun k late tn there => ?_
    rw [transition, tl₁] at there
    obtain ⟨k, rfl⟩ := Nat.exists_eq_succ_of_ne_zero (Nat.one_le_iff_ne_zero.mp late)
    cases there
  have followed : Followed (mountCall (moduleCalls mods)) .fnekSig t.nvps .enableFilenameCrypto w₁ w₂ 0
      (defaultTransition (some y) (some .fnekSig)) nullTok 0 := by
    refine ⟨?_, called, by decide, ?_⟩
    · rw [transition, tl₁]
      rfl
    · rw [nextToken, transition, asks.leads]
      rfl
  unfold doTransition at h
  simp only [passed] at h
  rw [defaultLoop_follow (i := 0) (j := 0) rfl (fun k low => absurd low (Nat.not_lt_zero k)) le_rfl
    (by decide) (by decide) followed] at h
  obtain ⟨-, same, rfl⟩ := Prod.mk.inj (Except.ok.inj h) |>.imp_right Prod.mk.inj
  refine ⟨(Option.some.inj same).symm, rfl, ?_, fun named => ?_⟩
  · rcases first with rfl | asks₁
    · exact asks
    · exact asks₁.trans asks
  · rcases before with ⟨-, unnamed⟩ | asks₁
    · exact absurd named unnamed
    · exact trapped asks₁.leads

/-! ## With a signature -/

/-- **The turn with a signature.**  The signature is pushed, and the nodes stay as they are. -/
theorem fnekSig_pushes (nodes : Filename C t.world) (verbosity : t.verbosity = 0)
    (given : ¬ NoSignature (t.node .fnekSig))
    (h : doTransition (mountCall (moduleCalls mods)) .fnekSig t = .ok (0, some m, s')) :
    m ∈ C ∧ s'.world.nodes = t.world.nodes ∧ FnekPushed s'.world.stack := by
  obtain ⟨x, inside, tl⟩ := nodes.fnek.tl
  obtain ⟨y, -, enableTl⟩ := nodes.enable.tl
  have once : ∀ {w w' code}, w.nodes = t.world.nodes → fnekSigCallback .fnekSig w = .ok (code, w') →
      w'.nodes = t.world.nodes ∧ FnekPushed w'.stack := by
    intro w w' code same called
    obtain ⟨-, ⟨none_, -⟩ | ⟨-, kept⟩⟩ := fnekSigCallback_cases
      ((congrArg (fun nodes => (nodes NodeId.fnekSig).tl) same).trans tl)
      ((congrArg (fun nodes => (nodes NodeId.enableFilenameCrypto).tl) same).trans enableTl) called
    · rw [same] at none_
      exact absurd none_ given
    · refine ⟨kept.trans same, ?_⟩
      rcases fnekSigCallback_stack called with ⟨none_, -⟩ | ⟨sig, pushed⟩
      · rw [same] at none_
        exact absurd none_ given
      · exact ⟨sig, pushed ▸ List.mem_cons_self⟩
  have isCallback : ∀ {w : MountWorld} {tn}, w.nodes = t.world.nodes → tn ∈ (w.nodes .fnekSig).tl →
      tn = defaultTransition (some x) (some .fnekSig) := by
    intro w tn same among
    rw [same, tl] at among
    exact List.mem_singleton.mp among
  obtain ⟨-, w, i, tn, c, code, same, followed⟩ := doTransition_to
    (P := fun w => w.nodes = t.world.nodes) verbosity rfl
    (fun w w' same called => by
      obtain ⟨tn, among, f, isFunc, code, called⟩ := called
      rw [isCallback same among] at isFunc
      obtain rfl := Option.some.inj isFunc
      exact (once same called).1)
    (fun w same => by rw [same]; exact nodes.fnek.stdin) h
  have called := followed.called
  rw [isCallback same (List.mem_of_getElem? followed.taken)] at called
  obtain ⟨kept, pushed⟩ := once same called
  refine ⟨?_, kept, pushed⟩
  have leads := nextToken_only ((congrArg (fun nodes => (nodes NodeId.fnekSig).tl) kept).trans tl)
    followed.next
  exact Option.some.inj leads ▸ inside

/-! ## Behind the features -/

theorem Filename.setNode {v : Option CStr} {set : Bool} (nodes : Filename C w) :
    Filename C (w.setNode n { w.nodes n with
      val := v, flags := { (w.nodes n).flags with parameterSet := set } }) := by
  have kept : ∀ {k option f}, OptionNode C option f (w.nodes k) → OptionNode C option f
      ((w.setNode n { w.nodes n with
        val := v, flags := { (w.nodes n).flags with parameterSet := set } }).nodes k) := by
    intro k option f isOption
    by_cases here : k = n
    · subst here
      rw [World.nodes_setNode_self]
      exact isOption.retrieved v set
    · rw [World.nodes_setNode_of_ne _ _ here]
      exact isOption
  exact ⟨kept nodes.fnek, kept nodes.enable⟩

/-- Behind the features `alloc_and_get_val` only works on its node. -/
theorem Filename.alloc {rc : ℤ} (here : n ∈ lastNodes) (nodes : Filename C s.world)
    (end_ : (s.node .end_).tl = []) (h : allocAndGetVal n s = .ok (rc, t)) :
    Filename C t.world ∧ (t.node .end_).tl = [] ∧ t.world.stack = s.world.stack := by
  have kept : ∀ (u : MountState) v set, Filename C u.world ∧ (u.node .end_).tl = [] ∧
      u.world.stack = s.world.stack → ∀ u', u' = u.setNode n { u.node n with
        val := v, flags := { (u.node n).flags with parameterSet := set } } →
      Filename C u'.world ∧ (u'.node .end_).tl = [] ∧ u'.world.stack = s.world.stack := by
    rintro u v set ⟨nodes, end_, stack⟩ u' rfl
    refine ⟨nodes.setNode, ?_, stack⟩
    rw [node_setNode]
    split_ifs with same
    · rw [← same]
      exact end_
    · exact end_
  refine allocAndGetVal_inv (P := fun u => Filename C u.world ∧ (u.node .end_).tl = [] ∧
    u.world.stack = s.world.stack) ⟨fun u v inP => kept u v _ inP _ rfl, fun u _ inP => inP⟩
    ⟨nodes, end_, rfl⟩ (fun _ => ?_) (fun implicit u m _ leads => ?_) h
  · obtain ⟨v, set, fields⟩ := (retrieveVal_spec (s.node n) s.nvps).fields
    have one := kept s v set ⟨nodes, end_, rfl⟩ _ rfl
    rw [← fields] at one
    exact one
  · -- the end leads nowhere, and the other two are explicit
    simp only [lastNodes, List.mem_cons, List.not_mem_nil, or_false] at here
    rcases here with rfl | rfl | rfl
    · rw [EvalState.node, nodes.fnek.explicit] at implicit
      cases implicit
    · rw [EvalState.node, nodes.enable.explicit] at implicit
      cases implicit
    · rw [end_] at leads
      obtain ⟨tn, none_, -⟩ := leads
      cases none_

/-- **A turn behind the features.**  The nodes keep their ways, and a signature stays on the stack. -/
theorem last_turn {c : Config NodeId Callback MountExt} (question : HasQuestion C)
    (here : n ∈ lastNodes) (nodes : Filename C s.world) (end_ : (s.node .end_).tl = [])
    (h : evalStep (mountCall (moduleCalls mods)) (.at n s) = some c) :
    c.Holds (fun t => Filename C t.world ∧ (t.node .end_).tl = [] ∧
      (FnekPushed s.world.stack → FnekPushed t.world.stack)) ∧
      ∀ m t, c = .at m t → m = n ∨ m ∈ C := by
  obtain ⟨holds, leads⟩ := evalStep_inv
    (I := fun w _ => Filename C w ∧ (w.nodes .end_).tl = [] ∧
      (FnekPushed s.world.stack → FnekPushed w.stack))
    (fun rc t allocated => by
      obtain ⟨nodes', end', stack⟩ := nodes.alloc here end_ allocated
      exact ⟨nodes', end', fun pushed => stack ▸ pushed⟩)
    (fun w w' nvps inI called => by
      obtain ⟨nodes', end', pushed⟩ := inI
      have inside : n ∈ questionNodes := by
        obtain ⟨tn, among, -⟩ := called
        simp only [lastNodes, List.mem_cons, List.not_mem_nil, or_false] at here
        rcases here with rfl | rfl | rfl
        · decide
        · decide
        · rw [end'] at among
          cases among
      obtain ⟨nodes'', end'', kept⟩ := nodes'.called question inside called
      exact ⟨nodes'', by rw [end'', end'], fun first => kept (pushed first)⟩) h
  refine ⟨holds, fun m t same => ?_⟩
  subst same
  obtain ⟨nodes', end', -⟩ := holds
  rcases leads m t rfl m rfl with rfl | ⟨tn, among, next_⟩
  · exact .inl rfl
  · right
    simp only [lastNodes, List.mem_cons, List.not_mem_nil, or_false] at here
    rcases here with rfl | rfl | rfl
    · exact nodes'.fnek.next among next_
    · exact nodes'.enable.next among next_
    · have end' : (t.world.nodes .end_).tl = [] := end'
      rw [end'] at among
      cases among

end Ecryptfs
