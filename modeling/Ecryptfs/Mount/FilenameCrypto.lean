import Ecryptfs.Mount.FilenameNodes
import Ecryptfs.Mount.Keys

/-!
# Requests for filename encryption

The answer to the question for filename encryption is taken from the list once and cleared, so that the
question counts as declined when it is asked again, and the mount goes on without filename encryption.
`requestKept_of_answered` says that a request is kept by every evaluation that does not come to
`fnekSig` with neither a signature nor an answer.
-/

namespace Ecryptfs

open StateTransition

variable {mods : List GraphModule} {version : UInt32} {w w' : MountWorld} {n m : NodeId}
  {s t s' : MountState} {nodes : NodeId → MountNode}

/-! ## In front of the signature -/

/-- The nodes in front of the signature for filenames. -/
def InFront (version : UInt32) (n : NodeId) : Prop :=
  IsModule n ∨ n ∈ [NodeId.root, .select, .anotherKey, .cipher, .keyBytes] ∨
    n ∈ .versionSupport :: featureChain version ∧ n ≠ .fnekSig

theorem InFront.early (inFront : InFront version n) : n ∉ lastNodes := by
  rcases inFront with ⟨m, k, rfl⟩ | among | ⟨among, noFnek⟩
  · simp [lastNodes]
  · revert n
    decide
  · obtain ⟨kind, -, noEnable⟩ := featureChain_versioned version n among
    have noEnd : n ≠ .end_ := by
      rintro rfl
      exact absurd kind (by decide)
    simp [lastNodes, noFnek, noEnable, noEnd]

/-- The graph while the evaluation is in front of the signature. -/
structure Wired (version : UInt32) (mods : List GraphModule) (w : MountWorld) : Prop where
  keys : KeyPart mods w
  next : ∀ n, InFront version n → ∀ tn ∈ (w.nodes n).tl, ∀ x, tn.nextToken = some x →
    InFront version x ∨ x = .fnekSig
  func : ∀ n, InFront version n → ∀ tn ∈ (w.nodes n).tl, ∀ f, tn.transFunc = some f →
    f ≠ .fnekSig ∧ f ≠ .enableFilenameCrypto
  nodes : Filename lastNodes w
  end_ : (w.nodes .end_).tl = []
  unasked : (w.nodes .enableFilenameCrypto).val = none

/-- A node in front is given a value or a flag. -/
theorem Wired.setNode {node : MountNode} (wired : Wired version mods w) (early : n ∉ lastNodes)
    (names : node.mntOptNames = (w.nodes n).mntOptNames)
    (explicit : node.flags.allowImplicitTransition = (w.nodes n).flags.allowImplicitTransition)
    (tl : node.tl = (w.nodes n).tl) : Wired version mods (w.setNode n node) := by
  have tl' : ∀ k, ((w.setNode n node).nodes k).tl = (w.nodes k).tl := by
    intro k
    by_cases here : k = n
    · rw [here, World.nodes_setNode_self, tl]
    · rw [World.nodes_setNode_of_ne _ _ here]
  have last : ∀ k ∈ lastNodes, (w.setNode n node).nodes k = w.nodes k := by
    intro k late
    exact World.nodes_setNode_of_ne _ _ fun same => early (same ▸ late)
  refine ⟨wired.keys.setNode names explicit tl, fun k inFront => ?_, fun k inFront => ?_,
    wired.nodes.of_nodes (last _ (by decide)) (last _ (by decide)), ?_, ?_⟩
  · rw [tl']
    exact wired.next k inFront
  · rw [tl']
    exact wired.func k inFront
  · rw [tl', wired.end_]
  · rw [last _ (by decide), wired.unasked]

theorem Wired.retrieve (wired : Wired version mods s.world) (early : n ∉ lastNodes) :
    Wired version mods (retrieve n s).world := by
  obtain ⟨v, set, fields⟩ := (retrieveVal_spec (s.node n) s.nvps).fields
  refine wired.setNode early ?_ ?_ ?_
  · rw [fields]
    rfl
  · rw [fields]
    rfl
  · rw [fields]
    rfl

theorem Wired.alloc {rc : ℤ} (wired : Wired version mods s.world) (early : n ∉ lastNodes)
    (h : allocAndGetVal n s = .ok (rc, t)) : Wired version mods t.world := by
  refine allocAndGetVal_inv (P := fun u => Wired version mods u.world)
    ⟨fun u v wired => wired.setNode early rfl rfl rfl, fun u _ wired => wired⟩ wired
    (fun _ => wired.retrieve early) (fun implicit u m wired' leads => ?_) h
  refine wired'.retrieve ?_
  rcases wired.keys.implicit implicit leads with rfl | ⟨i, k, rfl⟩
  · decide
  · simp [lastNodes]

/-- The callbacks in front of the signature stay away from the nodes of filename encryption. -/
theorem Wired.called {nvps : List NameValPair} (confined : Confined mods)
    (wired : Wired version mods w) (inFront : InFront version n)
    (called : Called (mountCall (moduleCalls mods)) n nvps w w') : Wired version mods w' := by
  obtain ⟨modules, keeps⟩ | ⟨outside, other, tn, among, f, code, isFunc, isGraph, h⟩ :=
    wired.keys.called_cases confined called
  · have last : ∀ k ∈ lastNodes, w'.nodes k = w.nodes k := by
      intro k late
      apply keeps
      rintro ⟨m, j, rfl⟩
      simp [lastNodes] at late
    refine ⟨wired.keys.keepsGraph modules keeps, fun k inFront' => ?_, fun k inFront' => ?_,
      wired.nodes.of_nodes (last _ (by decide)) (last _ (by decide)), ?_, ?_⟩
    · by_cases isModule : IsModule k
      · obtain ⟨m, j, rfl⟩ := isModule
        intro tn among x leads
        rcases (modules m j).next tn among x leads with rfl | isModule
        · exact .inl (.inr (.inl (by decide)))
        · exact .inl (.inl isModule)
      · rw [keeps k isModule]
        exact wired.next k inFront'
    · by_cases isModule : IsModule k
      · obtain ⟨m, j, rfl⟩ := isModule
        intro tn among f isFunc
        obtain ⟨i, c, rfl⟩ := (modules m j).func tn among f isFunc
        exact ⟨by simp, by simp⟩
      · rw [keeps k isModule]
        exact wired.func k inFront'
    · rw [last _ (by decide), wired.end_]
    · rw [last _ (by decide), wired.unasked]
  · have noFilename := wired.func n inFront tn among f isFunc
    have rewired := mountCall_rewired isGraph h
    have last : ∀ k ∈ lastNodes, w'.nodes k = w.nodes k := by
      intro k late
      have other' : k ≠ n := by
        rintro rfl
        exact inFront.early late
      have noKeyBytes : k ≠ .keyBytes := by
        rintro rfl
        exact absurd late (by decide)
      exact mountCall_elsewhere isGraph noFilename other' noKeyBytes h
    have early : ∀ {x : NodeId}, x ∈ [NodeId.root, .select, .anotherKey, .cipher, .keyBytes] →
        InFront version x ∨ x = .fnekSig := fun among => .inl (.inr (.inl among))
    have targets : ∀ x, graphTargets w n f (some x) → InFront version x ∨ x = .fnekSig := by
      intro x target
      cases f with
      | fnekSig => exact absurd rfl noFilename.1
      | enableFilenameCrypto => exact absurd rfl noFilename.2
      | sig =>
        obtain rfl := Option.some.inj target
        exact early (by decide)
      | anotherKey =>
        rcases target with target | target
        · obtain rfl := Option.some.inj target
          exact early (by decide)
        · obtain rfl := Option.some.inj target
          exact early (by decide)
      | cipher =>
        obtain rfl := Option.some.inj target
        exact .inl (.inr (.inr ⟨List.mem_cons_self, by decide⟩))
      | _ => exact target.elim
    refine ⟨(wired.keys.rewired outside other rewired).1, fun k inFront' tn' among' x leads => ?_,
      fun k inFront' tn' among' f' isFunc' => ?_,
      wired.nodes.of_nodes (last _ (by decide)) (last _ (by decide)), ?_, ?_⟩
    · rcases rewired.next k tn' among' with ⟨tn₀, among₀, same⟩ | target
      · exact wired.next k inFront' tn₀ among₀ x (same.symm.trans leads)
      · rw [leads] at target
        exact targets x target
    · rcases rewired.func k tn' among' with ⟨tn₀, among₀, same⟩ | ⟨-, isKeyBytes⟩
      · exact wired.func k inFront' tn₀ among₀ f' (same.symm.trans isFunc')
      · obtain rfl := Option.some.inj (isKeyBytes.symm.trans isFunc')
        exact ⟨by decide, by decide⟩
    · rw [last _ (by decide), wired.end_]
    · rw [last _ (by decide), wired.unasked]

/-! ## The start -/

/-- The signature for filenames ends the chain of the features. -/
theorem featureChain_fnek (supported : supports version versioningFilenameEncryption = true) :
    ∃ front, .versionSupport :: featureChain version = front ++ [.fnekSig] := by
  unfold featureChain
  rw [if_pos supported]
  exact ⟨_, (List.cons_append ..).symm⟩

/-- A feature leads to the next one, by a callback of its own. -/
theorem featureNode_start (static : Static nodes)
    (supported : supports version versioningFilenameEncryption = true)
    (among : n ∈ .versionSupport :: featureChain version) (noFnek : n ≠ .fnekSig) :
    ∀ tn ∈ (fillInVersionSupport version nodes n).tl,
      (∃ x ∈ .versionSupport :: featureChain version, tn.nextToken = some x) ∧
      ∀ f, tn.transFunc = some f → f ≠ .fnekSig ∧ f ≠ .enableFilenameCrypto := by
  obtain ⟨front, last⟩ := featureChain_fnek supported
  obtain ⟨before, after, here⟩ := List.append_of_mem among
  obtain ⟨suggested, filled⟩ := @chain_node version nodes static n before after here
  obtain ⟨x, rest, rfl⟩ : ∃ x rest, after = x :: rest := by
    cases after with
    | nil =>
      rw [here] at last
      exact absurd (List.append_inj_right' last rfl) (by simpa using noFnek)
    | cons x rest => exact ⟨x, rest, rfl⟩
  have table : ∀ n ∈ versioned, n ≠ .cipher → n ≠ .enableFilenameCrypto → n ≠ .fnekSig →
      ∀ tn ∈ (staticNode n).tl, ∀ f ∈ tn.transFunc, f ≠ .fnekSig ∧ f ≠ .enableFilenameCrypto := by
    decide
  obtain ⟨kind, noCipher, noEnable⟩ := featureChain_versioned version n among
  intro tn inside
  rw [filled] at inside
  obtain ⟨tn₀, inside₀, rfl⟩ := List.mem_map.mp inside
  refine ⟨⟨x, ?_, rfl⟩, table n kind noCipher noEnable noFnek tn₀ inside₀⟩
  rw [here]
  simp

/-- A node in front of the signature leads to such a node or to the signature, and calls none of the
callbacks of filename encryption. -/
theorem inFront_start (confined : Confined mods)
    (supported : supports version versioningFilenameEncryption = true) (inFront : InFront version n)
    {tn : TransitionNode NodeId Callback} (among : tn ∈ (mountNodes version mods n).tl) :
    (∀ x, tn.nextToken = some x → InFront version x ∨ x = .fnekSig) ∧
      ∀ f, tn.transFunc = some f → f ≠ .fnekSig ∧ f ≠ .enableFilenameCrypto := by
  have early : ∀ {x y : NodeId}, tn.nextToken = some x →
      x ∈ [NodeId.root, .select, .anotherKey, .cipher, .keyBytes] →
      tn.nextToken = some y → InFront version y ∨ y = .fnekSig := by
    intro x y leads inside leads'
    obtain rfl := Option.some.inj (leads.symm.trans leads')
    exact .inl (.inr (.inl inside))
  have ofModule : ∀ {node : MountNode}, ModuleNode node → tn ∈ node.tl →
      (∀ x, tn.nextToken = some x → InFront version x ∨ x = .fnekSig) ∧
        ∀ f, tn.transFunc = some f → f ≠ .fnekSig ∧ f ≠ .enableFilenameCrypto := by
    intro node module among
    refine ⟨fun x leads => ?_, fun f isFunc => ?_⟩
    · rcases module.next tn among x leads with rfl | isModule
      · exact .inl (.inr (.inl (by decide)))
      · exact .inl (.inl isModule)
    · obtain ⟨m, c, rfl⟩ := module.func tn among f isFunc
      exact ⟨by simp, by simp⟩
  have ofStatic : (staticNode n).tl = [defaultTransition (some .cipher) (some .sig)] ∨
      (staticNode n).tl = [defaultTransition (some .cipher) (some .anotherKey)] →
      n ∉ versioned → n ≠ .select → (∀ m k, n ≠ .mod m k) →
      (∀ x, tn.nextToken = some x → InFront version x ∨ x = .fnekSig) ∧
        ∀ f, tn.transFunc = some f → f ≠ .fnekSig ∧ f ≠ .enableFilenameCrypto := by
    intro only noFeature noSelect noModule
    rw [mountNodes_static confined.linked noFeature noSelect noModule] at among
    rcases only with tl | tl
    · rw [tl] at among
      obtain rfl := List.mem_singleton.mp among
      exact ⟨fun x => early rfl (by decide), fun f isFunc => Option.some.inj isFunc ▸ by decide⟩
    · rw [tl] at among
      obtain rfl := List.mem_singleton.mp among
      exact ⟨fun x => early rfl (by decide), fun f isFunc => Option.some.inj isFunc ▸ by decide⟩
  rcases inFront with ⟨m, k, rfl⟩ | inside | ⟨inside, noFnek⟩
  · rw [mountNodes_module] at among
    exact ofModule (exitedNodes_module confined m k) among
  · simp only [List.mem_cons, List.not_mem_nil, or_false] at inside
    rcases inside with rfl | rfl | rfl | rfl | rfl
    · exact ofStatic (.inl rfl) (by decide) (by decide) (by simp)
    · rw [mountNodes_select confined.linked] at among
      obtain ⟨g, registered, rfl⟩ := List.mem_map.mp among
      obtain ⟨-, ⟨x, next_, isModule⟩, funcs⟩ := confined.enter g registered
      refine ⟨fun y leads => ?_, fun f isFunc => ?_⟩
      · obtain rfl := Option.some.inj (next_.symm.trans leads)
        exact .inl (.inl isModule)
      · obtain ⟨m, c, rfl⟩ := funcs f isFunc
        exact ⟨by simp, by simp⟩
    · exact ofStatic (.inr rfl) (by decide) (by decide) (by simp)
    · obtain ⟨leads, isFunc⟩ := (static_exited confined.linked).cipher version tn among
      refine ⟨fun x => early leads (by decide), fun f isFunc' => ?_⟩
      rw [← Option.some.inj (isFunc.symm.trans isFunc')]
      decide
    · rw [mountNodes_static confined.linked (by decide) (by decide) (by simp)] at among
      cases among
  · obtain ⟨⟨x, inside', leads⟩, funcs⟩ :=
      featureNode_start (static_exited confined.linked) supported inside noFnek tn among
    refine ⟨fun y leads' => ?_, funcs⟩
    obtain rfl := Option.some.inj (leads.symm.trans leads')
    by_cases isFnek : x = .fnekSig
    · exact .inr isFnek
    · exact .inl (.inr (.inr ⟨inside', isFnek⟩))

theorem wired_start (confined : Confined mods)
    (supported : supports version versioningFilenameEncryption = true)
    (start : w.nodes = mountNodes version mods) : Wired version mods w := by
  have static := static_exited confined.linked
  obtain ⟨front, last⟩ := featureChain_fnek supported
  obtain ⟨suggested, fnek⟩ := @chain_node version _ static .fnekSig front [] last
  obtain ⟨suggested', enable⟩ := @fill_enable version _ static
  have fnek : w.nodes .fnekSig = { staticNode .fnekSig with suggestedVal := suggested } := by
    rw [start]
    exact fnek
  have enable : w.nodes .enableFilenameCrypto =
      { staticNode .enableFilenameCrypto with suggestedVal := suggested' } := by
    rw [start]
    exact enable
  refine ⟨keyPart_start confined start, fun n inFront tn among => ?_, fun n inFront tn among => ?_,
    ⟨?_, ?_⟩, ?_, ?_⟩
  · rw [start] at among
    exact (inFront_start confined supported inFront among).1
  · rw [start] at among
    exact (inFront_start confined supported inFront among).2
  · rw [fnek]
    exact ⟨rfl, rfl, rfl, rfl, .end_, by decide, rfl⟩
  · rw [enable]
    exact ⟨rfl, rfl, rfl, rfl, .fnekSig, by decide, rfl⟩
  · rw [start]
    exact congrArg ParamNode.tl (fill_end static)
  · rw [enable]
    rfl

/-! ## Whole evaluations -/

/-- The question counts as declined when it is asked: it has no answer, or the answer no. -/
def Declines (s : MountState) : Prop :=
  ¬ SaysYes (valued .enableFilenameCrypto s) ∧ isYes (valued .enableFilenameCrypto s).val 0 = 0

/-- At the signature there is a signature, or the question is not declined.  A list with an entry
`default` never comes to the end without a signature. -/
def Answered (s : MountState) : Prop :=
  ¬ NoSignature (valued .fnekSig s) ∨ ¬ Declines s ∨ Named (lit "default") s.nvps

theorem answered_of_signature {v : CStr} (given : (valued .fnekSig s).val = some v)
    (real : v ≠ lit "NULL") : Answered s := by
  refine .inl ?_
  rintro (absent | null)
  · rw [given] at absent
    cases absent
  · exact real (Option.some.inj (given.symm.trans null))

/-- The stages of an evaluation that keeps a request for filename encryption. -/
inductive Stage (version : UInt32) (mods : List GraphModule) : NodeId → MountState → Prop
  | front {n : NodeId} {s : MountState} (inFront : InFront version n)
      (wired : Wired version mods s.world) : Stage version mods n s
  | signature {s : MountState} (nodes : Filename lastNodes s.world) (end_ : (s.node .end_).tl = [])
      (unasked : (s.node .enableFilenameCrypto).val = none) : Stage version mods .fnekSig s
  | question {s : MountState} (nodes : Filename lastNodes s.world) (end_ : (s.node .end_).tl = [])
      (unasked : (s.node .enableFilenameCrypto).val = none)
      (unnamed : ¬ Named (lit "default") s.nvps) (answer : ¬ Declines s) :
      Stage version mods .enableFilenameCrypto s
  | trapped {n : NodeId} {s : MountState} (here : n ∈ questionNodes)
      (nodes : Filename questionNodes s.world) (end_ : (s.node .end_).tl = []) :
      Stage version mods n s
  | pushed {n : NodeId} {s : MountState} (here : n ∈ lastNodes) (nodes : Filename lastNodes s.world)
      (end_ : (s.node .end_).tl = []) (signature : FnekPushed s.world.stack) : Stage version mods n s

/-- From a node in front of the signature the evaluation goes to such a node or to the signature. -/
theorem stage_of_front (confined : Confined mods) (inFront : InFront version n)
    (wired : Wired version mods s.world) (allocated : allocAndGetVal n s = .ok (0, t))
    (h : doTransition (mountCall (moduleCalls mods)) n t = .ok (0, some m, s')) :
    Stage version mods m s' := by
  obtain ⟨-, wired', leads⟩ := doTransition_inv (Q := Wired version mods)
    (fun w w' wired' called => wired'.called confined inFront called)
    (wired.alloc inFront.early allocated) h
  rcases leads m rfl with rfl | ⟨tn, among, next_⟩
  · exact .front inFront wired'
  · rcases wired'.next n inFront tn among m next_ with inFront' | rfl
    · exact .front inFront' wired'
    · exact .signature wired'.nodes wired'.end_ wired'.unasked

/-- At the signature, it is pushed, or the question is next and has an answer. -/
theorem stage_of_signature (verbosity : s.verbosity = 0) (nodes : Filename lastNodes s.world)
    (end_ : (s.node .end_).tl = []) (unasked : (s.node .enableFilenameCrypto).val = none)
    (answered : Answered s) (allocated : allocAndGetVal .fnekSig s = .ok (0, t))
    (h : doTransition (mountCall (moduleCalls mods)) .fnekSig t = .ok (0, some m, s')) :
    Stage version mods m s' := by
  have took := OptionNode.took nodes.fnek verbosity allocated
  have nodes' := took.filename nodes (.inl rfl)
  have enable : t.node .enableFilenameCrypto = s.node .enableFilenameCrypto :=
    took.other _ (by decide)
  have end' : t.node .end_ = s.node .end_ := took.other _ (by decide)
  by_cases noSig : NoSignature (t.node .fnekSig)
  · obtain ⟨rfl, nvps, asks, trapped⟩ := fnekSig_turn ⟨by decide, by decide⟩ nodes' noSig h
    have ends : (s'.node .end_).tl = [] := by
      rw [EvalState.node, asks.end_]
      exact (congrArg ParamNode.tl end').trans end_
    by_cases named : Named (lit "default") t.nvps
    · exact .trapped (by decide) (trapped named) ends
    · have val : (s'.node .enableFilenameCrypto).val = (s.node .enableFilenameCrypto).val :=
        asks.val.trans (congrArg ParamNode.val enable)
      have flags : (s'.node .enableFilenameCrypto).flags = (s.node .enableFilenameCrypto).flags :=
        asks.flags.trans (congrArg ParamNode.flags enable)
      have same : queue (lit "ecryptfs_enable_filename_crypto") s'.nvps =
          queue (lit "ecryptfs_enable_filename_crypto") s.nvps := by
        rw [nvps]
        exact took.queues _ (by simp)
      obtain ⟨val', flags'⟩ := valued_same nodes.enable asks.nodes.enable unasked val flags same
      refine .question asks.nodes ends (val.trans unasked) (by rwa [nvps]) ?_
      rcases answered with given | answer | named'
      · rw [← took.here] at given
        exact absurd noSig given
      · unfold Declines SaysYes at answer ⊢
        rw [val', flags']
        exact answer
      · rw [Named, took.names] at named
        exact absurd named' named
  · obtain ⟨inside, kept, pushed⟩ := fnekSig_pushes nodes' (took.verbosity.trans verbosity) noSig h
    refine .pushed inside (nodes'.of_nodes (by rw [kept]) (by rw [kept])) ?_ pushed
    rw [EvalState.node, kept]
    exact (congrArg ParamNode.tl end').trans end_

/-- A question that is not declined leads back to the signature. -/
theorem stage_of_question (verbosity : s.verbosity = 0) (nodes : Filename lastNodes s.world)
    (end_ : (s.node .end_).tl = []) (unnamed : ¬ Named (lit "default") s.nvps) (answer : ¬ Declines s)
    (allocated : allocAndGetVal .enableFilenameCrypto s = .ok (0, t))
    (h : doTransition (mountCall (moduleCalls mods)) .enableFilenameCrypto t = .ok (0, some m, s')) :
    Stage version mods m s' := by
  have question : HasQuestion lastNodes := ⟨by decide, by decide⟩
  have took := OptionNode.took nodes.enable verbosity allocated
  have nodes' := took.filename nodes (.inr rfl)
  obtain ⟨x, -, tl⟩ := nodes'.enable.tl
  obtain ⟨-, i, c, code, right, followed⟩ := doTransition_to_once (took.verbosity.trans verbosity) tl rfl
    (by rwa [Named, took.names]) (by
      rintro w (rfl | called)
      · exact nodes'.enable.stdin
      · exact (nodes'.called question (by decide) called).1.enable.stdin) h
  have called : getEnableFilenameCrypto .enableFilenameCrypto t.world = .ok (code, s'.world) :=
    followed.called
  have here : t.world.nodes .enableFilenameCrypto = valued .enableFilenameCrypto s := took.here
  have yes : SaysYes (t.world.nodes .enableFilenameCrypto) := by
    by_contra no
    refine right ((getEnableFilenameCrypto_spec called).2 no fun declined => answer ?_)
    rw [here] at no declined
    exact ⟨no, declined⟩
  obtain ⟨nodes'', end'', back⟩ := getEnableFilenameCrypto_keeps question nodes' called
  obtain ⟨cleared, leads⟩ := back yes
  obtain rfl : NodeId.fnekSig = m := Option.some.inj (nextToken_only leads followed.next)
  refine .signature nodes'' ?_ cleared
  rw [EvalState.node, end'']
  exact (congrArg ParamNode.tl (took.other _ (by decide))).trans end_

/-- An evaluation that keeps a request: it is at one of the stages, or has pushed a signature when it is
at its end. -/
def OnCourse (version : UInt32) (mods : List GraphModule) : Config NodeId Callback MountExt → Prop
  | .at n s => s.verbosity = 0 ∧ Stage version mods n s
  | .done _ last s => last = .end_ → FnekPushed s.world.stack
  | .stopped _ => True

/-- **One turn.**  An evaluation stays on course if the question is answered when there is no
signature. -/
theorem onCourse_step (confined : Confined mods) {c : Config NodeId Callback MountExt}
    (course : OnCourse version mods (.at n s)) (answered : n = .fnekSig → Answered s)
    (h : evalStep (mountCall (moduleCalls mods)) (.at n s) = some c) : OnCourse version mods c := by
  obtain ⟨verbosity, stage⟩ := course
  rcases evalStep_cases h with ⟨why, rfl⟩ | ⟨rc, t, rfl⟩ | ⟨t, m, s', rfl, same, allocated, transitioned⟩
  · trivial
  · rintro rfl
    cases stage with
    | front inFront => exact absurd (by decide) inFront.early
    | trapped here => exact absurd here (by decide)
    | pushed here nodes end_ signature =>
      exact (last_turn ⟨by decide, by decide⟩ here nodes end_ h).1.2.2 signature
  · refine ⟨same.trans verbosity, ?_⟩
    cases stage with
    | front inFront wired => exact stage_of_front confined inFront wired allocated transitioned
    | signature nodes end_ unasked =>
      exact stage_of_signature verbosity nodes end_ unasked (answered rfl) allocated transitioned
    | question nodes end_ unasked unnamed answer =>
      exact stage_of_question verbosity nodes end_ unnamed answer allocated transitioned
    | trapped here nodes end_ =>
      have late : ∀ k ∈ questionNodes, k ∈ lastNodes := by decide
      obtain ⟨⟨nodes', end', -⟩, leads⟩ :=
        last_turn ⟨by decide, by decide⟩ (late n here) nodes end_ h
      exact .trapped ((leads m s' rfl).elim (fun stays => stays ▸ here) id) nodes' end'
    | pushed here nodes end_ signature =>
      obtain ⟨⟨nodes', end', pushed⟩, leads⟩ :=
        last_turn ⟨by decide, by decide⟩ here nodes end_ h
      exact .pushed ((leads m s' rfl).elim (fun stays => stays ▸ here) id) nodes' end' (pushed signature)

/-- A request for filename encryption is kept: an evaluation that succeeds at the end of the graph has
pushed a signature for filenames. -/
def RequestKept (version : UInt32) (mods : List GraphModule) (nvps : List NameValPair)
    (inputs : List (Except {rc : ℤ // rc < 0} CStr)) : Prop :=
  ∀ rc s, Reaches (evalStep (mountCall (moduleCalls mods)))
      (evalStart .root (mountState version mods nvps inputs)) (.done rc .end_ s) →
    evalResult rc = 0 → FnekPushed s.world.stack

/-- **Answered requests are kept.**  An evaluation that finds a signature or an answer whenever it comes
to the signature does not end without one. -/
theorem requestKept_of_answered {nvps : List NameValPair}
    {inputs : List (Except {rc : ℤ // rc < 0} CStr)} (confined : Confined mods)
    (supported : supports version versioningFilenameEncryption = true)
    (quiet : getVerbosity nvps = .ok 0)
    (answered : ∀ s, Reaches (evalStep (mountCall (moduleCalls mods)))
      (evalStart .root (mountState version mods nvps inputs)) (.at .fnekSig s) → Answered s) :
    RequestKept version mods nvps inputs := by
  intro rc s reached _
  rw [evalStart_quiet quiet] at reached answered
  have start : OnCourse version mods (.at .root (mountState version mods nvps inputs)) :=
    ⟨rfl, .front (.inr (.inl (by decide))) (wired_start confined supported rfl)⟩
  have course := Machine.invariant (f := evalStep (mountCall (moduleCalls mods)))
    (I := fun c => Reaches (evalStep (mountCall (moduleCalls mods)))
      (.at .root (mountState version mods nvps inputs)) c ∧ OnCourse version mods c)
    (fun a b inv stepped => by
      refine ⟨inv.1.tail stepped, ?_⟩
      cases a with
      | «at» n s => exact onCourse_step confined inv.2 (fun here => answered s (here ▸ inv.1)) stepped
      | done rc last s => cases stepped
      | stopped why => cases stepped)
    ⟨.refl, start⟩ reached
  exact course.2 rfl

/-- The options of a mount that asks for filename encryption, with the given further options. -/
def requestOptions (more : List NameValPair) : List NameValPair :=
  [⟨"verbosity", some (lit "0"), false⟩, ⟨"sig", some (lit "d395309aaad4de06"), false⟩,
    ⟨"ecryptfs_cipher", some (lit "aes"), false⟩, ⟨"ecryptfs_key_bytes", some (lit "16"), false⟩,
    ⟨"ecryptfs_enable_filename_crypto", some (lit "y"), false⟩] ++ more

set_option maxRecDepth 4000 in
/-- A request with a signature is kept. -/
theorem requestKept_fnek : RequestKept 0x101 [passphraseModule plainEnv 0]
    (requestOptions [⟨"ecryptfs_fnek_sig", some (lit "d395309aaad4de06"), false⟩]) [] := by
  refine requestKept_of_answered (confined_passphrase plainEnv) rfl rfl ?_
  rw [mountState_passphrase]
  intro s reached
  -- the run comes to the signature at its fifth node
  rcases Machine.reached_of_step reached rfl with same | reached
  · cases same
  rcases Machine.reached_of_step reached rfl with same | reached
  · cases same
  rcases Machine.reached_of_step reached rfl with same | reached
  · cases same
  rcases Machine.reached_of_step reached rfl with same | reached
  · cases same
  rcases Machine.reached_of_step reached rfl with same | reached
  · obtain ⟨-, rfl⟩ := Config.at.inj same
    exact answered_of_signature (v := lit "d395309aaad4de06") rfl (by decide)
  rcases Machine.reached_of_step reached rfl with same | reached
  · cases same
  rcases Relation.ReflTransGen.cases_head reached with same | ⟨d, stepped, -⟩
  · cases same
  · cases stepped

set_option maxRecDepth 4000 in
/-- A request without a signature is dropped: the mount goes on without filename encryption. -/
theorem request_dropped : supports 0x101 versioningFilenameEncryption = true ∧
    passphraseOnly plainEnv 0x101 false = .ok [passphraseModule plainEnv 0] ∧
    Confined [passphraseModule plainEnv 0] ∧ getVerbosity (requestOptions []) = .ok 0 ∧
    ⟨lit "ecryptfs_enable_filename_crypto", some (lit "y"), false⟩ ∈ requestOptions [] ∧
    ¬ RequestKept 0x101 [passphraseModule plainEnv 0] (requestOptions []) [] := by
  refine ⟨rfl, rfl, confined_passphrase plainEnv, rfl, by decide, fun kept => ?_⟩
  unfold RequestKept at kept
  rw [mountState_passphrase] at kept
  have run : ∃ s : MountState, Reaches
      (evalStep (mountCall (moduleCalls [passphraseModule plainEnv 0])))
      (evalStart .root
        { world := ⟨fillInVersionSupport 0x101 (passphraseExited plainEnv), [none], {}⟩
          nvps := requestOptions [], verbosity := 0, hasGetString := true, inputs := [] })
      (.done nullTok .end_ s) ∧ s.world.stack = [param "ecryptfs_key_bytes=" (lit "16"),
        param "ecryptfs_cipher=" (lit "aes"), param "ecryptfs_sig=" (lit "d395309aaad4de06"), none] :=
    ⟨_, .head rfl (.head rfl (.head rfl (.head rfl (.head rfl (.head rfl (.head rfl (.head rfl
      (.head rfl .refl)))))))), rfl⟩
  obtain ⟨s, reached, stack⟩ := run
  have pushed := (kept nullTok s reached rfl).text
  rw [stack] at pushed
  revert pushed
  decide

end Ecryptfs
