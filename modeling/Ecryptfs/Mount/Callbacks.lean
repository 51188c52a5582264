import Ecryptfs.Mount.Shape

/-!
# The mount graph during an evaluation

What the callbacks of the mount graph can do to its nodes.  Most of them only work on the value of
their own node; a few redirect the transitions of a node or fill in those of the next one, and the
two nodes of filename encryption link each other in.
-/

namespace Ecryptfs

/-! ## What callbacks leave alone -/

/-- Only the value of node `n` may have changed among the nodes. -/
def OnlyVal (n : NodeId) (w w' : MountWorld) : Prop :=
  ∃ v, w'.nodes = Function.update w.nodes n { w.nodes n with val := v }

theorem OnlyVal.of_nodes {n : NodeId} {w w' : MountWorld} (same : w'.nodes = w.nodes) :
    OnlyVal n w w' := by
  refine ⟨(w.nodes n).val, ?_⟩
  rw [same]
  exact (Function.update_eq_self n w.nodes).symm

theorem clearVal_self (w : MountWorld) (n : NodeId) :
    (clearVal w n).nodes n = { w.nodes n with val := none } :=
  Function.update_self _ _ _

theorem OnlyVal.clear {n : NodeId} {w w' : MountWorld} (same : w'.nodes = (clearVal w n).nodes) :
    OnlyVal n w w' :=
  ⟨none, same⟩

theorem stackPushIfYes_onlyVal {optName : String} {n : NodeId} {w w' : MountWorld} {code : ℤ}
    (h : stackPushIfYes optName n w = .ok (code, w')) : OnlyVal n w w' := by
  unfold stackPushIfYes at h
  simp only at h
  split_ifs at h <;>
  · obtain ⟨-, rfl⟩ := Prod.mk.inj (Except.ok.inj h)
    exact .clear rfl

theorem tfKeyBytes_onlyVal {n : NodeId} {w w' : MountWorld} {code : ℤ}
    (h : tfKeyBytes n w = .ok (code, w')) : OnlyVal n w w' := by
  obtain ⟨-, rfl⟩ := Prod.mk.inj (Except.ok.inj h)
  exact .clear rfl

theorem tfPasswd_cases {n : NodeId} {w w' : MountWorld} {code : ℤ}
    (h : tfPasswd n w = .ok (code, w')) :
    ((w.nodes n).val = none ∧ code = -einval ∧ w' = w) ∨
      ((w.nodes n).val.isSome ∧ w'.nodes = (clearVal w n).nodes) := by
  unfold tfPasswd at h
  split at h
  · next absent =>
    obtain ⟨rfl, rfl⟩ := Prod.mk.inj (Except.ok.inj h)
    exact .inl ⟨absent, rfl, rfl⟩
  · next v given =>
    obtain ⟨-, rfl⟩ := Prod.mk.inj (Except.ok.inj h)
    exact .inr ⟨by rw [given]; rfl, rfl⟩

theorem passFromFile_nodes (result : ℤ × List NameValPair) (n : NodeId) (w : MountWorld) :
    (passFromFile result n w).2.nodes = (clearVal w n).nodes := by
  unfold passFromFile
  split_ifs
  · rfl
  · split <;> rfl

theorem tfPassFile_cases {env : MountEnv} {n : NodeId} {w w' : MountWorld} {code : ℤ}
    (h : tfPassFile env n w = .ok (code, w')) :
    ((w.nodes n).val = none → code < 0 ∨ code = mountError) ∧
      w'.nodes = (clearVal w n).nodes := by
  unfold tfPassFile at h
  simp only at h
  split_ifs at h
  · split at h
    · obtain ⟨rfl, rfl⟩ := Prod.mk.inj (Except.ok.inj h)
      exact ⟨fun _ => .inl (by decide), rfl⟩
    · next path given =>
      have nodes := passFromFile_nodes (env.passFile path) n w
      rw [Except.ok.inj h] at nodes
      refine ⟨fun absent => ?_, nodes⟩
      rw [absent] at given
      cases given
  · split at h
    · cases h
    · next fd given =>
      have nodes := passFromFile_nodes (env.passFd fd) n w
      rw [Except.ok.inj h] at nodes
      refine ⟨fun absent => ?_, nodes⟩
      rw [absent] at given
      cases given
  · obtain ⟨rfl, rfl⟩ := Prod.mk.inj (Except.ok.inj h)
    exact ⟨fun _ => .inr rfl, rfl⟩

theorem tfSalt_onlyVal {env : MountEnv} {n : NodeId} {w w' : MountWorld} {code : ℤ}
    (h : tfSalt env n w = .ok (code, w')) : OnlyVal n w w' := by
  unfold tfSalt at h
  simp only at h
  split at h
  · split_ifs at h <;>
    · obtain ⟨-, rfl⟩ := Prod.mk.inj (Except.ok.inj h)
      exact .clear rfl
  · cases h

theorem exitLinearSubgraph_onlyVal {env : MountEnv} {n : NodeId} {w w' : MountWorld} {code : ℤ}
    (h : exitLinearSubgraph env n w = .ok (code, w')) : OnlyVal n w w' := by
  unfold exitLinearSubgraph at h
  simp only at h
  split at h
  · cases h
  · split_ifs at h <;>
    · obtain ⟨-, rfl⟩ := Prod.mk.inj (Except.ok.inj h)
      exact .of_nodes rfl

theorem enterLinearSubgraph_onlyVal {aliases : List CStr} {n : NodeId} {w w' : MountWorld}
    {code : ℤ} (h : enterLinearSubgraph aliases n w = .ok (code, w')) : OnlyVal n w w' := by
  unfold enterLinearSubgraph at h
  split at h
  · cases h
  · split at h <;>
    · obtain ⟨-, rfl⟩ := Prod.mk.inj (Except.ok.inj h)
      exact .of_nodes rfl

theorem linearSubgraphVal_onlyVal {n : NodeId} {w w' : MountWorld} {code : ℤ}
    (h : linearSubgraphVal n w = .ok (code, w')) : OnlyVal n w w' := by
  unfold linearSubgraphVal at h
  split at h
  · obtain ⟨-, rfl⟩ := Prod.mk.inj (Except.ok.inj h)
    exact .of_nodes rfl
  · split at h
    · cases h
    · obtain ⟨-, rfl⟩ := Prod.mk.inj (Except.ok.inj h)
      exact .of_nodes rfl

/-! ## The graph during an evaluation -/

/-- The transitions that a node of the graph `g` has during an evaluation.  Some callbacks redirect
the only transition of their node, and the key-bytes node gets its transitions from the cipher. -/
def TransitionsOk (g : NodeId → MountNode) :
    NodeId → List (TransitionNode NodeId Callback) → Prop
  | .root, tl => ∃ x, (x = .cipher ∨ x = .select) ∧ tl = [defaultTransition (some x) (some .sig)]
  | .anotherKey, tl =>
    ∃ x, (x = .cipher ∨ x = .select) ∧ tl = [defaultTransition (some x) (some .anotherKey)]
  | .keyBytes, tl =>
    ∀ tn ∈ tl, tn.nextToken = some .versionSupport ∧ tn.transFunc = some .keyBytes
  | .fnekSig, tl => ∃ x, tl = [defaultTransition (some x) (some .fnekSig)]
  | .enableFilenameCrypto, tl =>
    ∃ x, tl = [defaultTransition (some x) (some .enableFilenameCrypto)]
  | n, tl => tl = (g n).tl

/-- What does not change of a node of the graph `g` during an evaluation. -/
structure NodeOk (g : NodeId → MountNode) (n : NodeId) (node : MountNode) : Prop where
  names : node.mntOptNames = (g n).mntOptNames
  default : node.defaultVal = (g n).defaultVal
  stdin : node.flags.stdinRequired = false
  implicit : node.flags.allowImplicitTransition = true → n = .mod 0 0
  tl : TransitionsOk g n node.tl

def WorldOk (g : NodeId → MountNode) (w : MountWorld) : Prop := ∀ n, NodeOk g n (w.nodes n)

/-- The callback of the features; the version node has none. -/
def featureCallback : NodeId → Option Callback
  | .passthrough => some .passthrough
  | .hmac => some .hmac
  | .xattr => some .xattr
  | .encryptedPassthrough => some .encryptedPassthrough
  | _ => none

def featureNodes : List NodeId :=
  [.versionSupport, .passthrough, .hmac, .xattr, .encryptedPassthrough]

/-- The graph at the start of an evaluation, as far as its transitions stay: one key module, whose
callbacks only work on the value of their node, and behind the keys the way to the end. -/
structure KeyGraph (g : NodeId → MountNode) (mods : List GraphModule) : Prop where
  select : ∃ f, (g .select).tl = [⟨some (lit "passphrase"), some (.mod 0 0), f⟩] ∧
    (f = none ∨ ∃ c, f = some (.mod 0 c))
  modFuncs : ∀ m k, ∀ tn ∈ (g (.mod m k)).tl, ∀ f, tn.transFunc = some f → ∃ c, f = .mod 0 c
  calls : ∀ c n nvps w code w', moduleCalls mods 0 c n nvps w = .ok (code, w') → OnlyVal n w w'
  cipher : ∀ tn ∈ (g .cipher).tl, tn.nextToken = some .keyBytes ∧ tn.transFunc = some .cipher
  features : ∀ n ∈ featureNodes, ∀ tn ∈ (g n).tl, tn.transFunc = featureCallback n ∧
    ∀ m, tn.nextToken = some m → depthToEnd m < depthToEnd n ∧ m ≠ .enableFilenameCrypto
  ends : (g .end_).tl = [] ∧ (g .dummy).tl = []

/-- The nodes that the callbacks of node `n` may change. -/
def Touches (n k : NodeId) : Prop :=
  k = n ∨ (n = .cipher ∧ k = .keyBytes) ∨ (n = .fnekSig ∧ k = .enableFilenameCrypto) ∨
    (n = .enableFilenameCrypto ∧ k = .fnekSig)

variable {g : NodeId → MountNode} {mods : List GraphModule}

theorem WorldOk.update {w w' : MountWorld} {n : NodeId} {node : MountNode} (ok : WorldOk g w)
    (nodeOk : NodeOk g n node) (changed : w'.nodes = Function.update w.nodes n node) :
    WorldOk g w' := by
  intro k
  rw [changed, Function.update_apply]
  split_ifs with same
  · rw [same]
    exact nodeOk
  · exact ok k

theorem WorldOk.onlyVal {w w' : MountWorld} {n : NodeId} (ok : WorldOk g w)
    (only : OnlyVal n w w') : WorldOk g w' ∧ ∀ k, ¬ Touches n k → w'.nodes k = w.nodes k := by
  obtain ⟨v, changed⟩ := only
  refine ⟨ok.update ?_ changed, fun k outside => ?_⟩
  · exact ⟨(ok n).names, (ok n).default, (ok n).stdin, (ok n).implicit, (ok n).tl⟩
  · rw [changed, Function.update_of_ne fun same => outside (.inl same)]

/-- The only transition of a node is redirected. -/
theorem setFirstNext_nodes {w : MountWorld} {n : NodeId} {x : Option NodeId} {f : Option Callback}
    (only : (w.nodes n).tl = [defaultTransition x f]) (y : Option NodeId) :
    (setFirstNext w n y).nodes =
      Function.update w.nodes n { w.nodes n with tl := [defaultTransition y f] } := by
  unfold setFirstNext World.modify World.setNode
  dsimp only
  rw [only]
  rfl

theorem sigCallback_ok {w w' : MountWorld} {code : ℤ} (ok : WorldOk g w)
    (h : sigCallback .root w = .ok (code, w')) :
    WorldOk g w' ∧ ∀ k, ¬ Touches .root k → w'.nodes k = w.nodes k := by
  obtain ⟨x, -, only⟩ := (ok .root).tl
  have redirected : ∀ {code'}, (Except.ok (0, setFirstNext w .root (some .select)) :
      Except Stop (ℤ × MountWorld)) = .ok (code', w') →
      WorldOk g w' ∧ ∀ k, ¬ Touches .root k → w'.nodes k = w.nodes k := by
    intro code' h
    obtain ⟨-, rfl⟩ := Prod.mk.inj (Except.ok.inj h)
    have changed := setFirstNext_nodes only (some .select)
    refine ⟨ok.update ?_ changed, fun k outside => ?_⟩
    · exact ⟨(ok .root).names, (ok .root).default, (ok .root).stdin, (ok .root).implicit,
        .select, .inr rfl, rfl⟩
    · rw [changed, Function.update_of_ne fun same => outside (.inl same)]
  unfold sigCallback at h
  split at h
  · exact redirected h
  · split_ifs at h
    · exact redirected h
    · obtain ⟨-, rfl⟩ := Prod.mk.inj (Except.ok.inj h)
      exact ⟨ok, fun _ _ => rfl⟩

theorem anotherKeyCallback_ok {nvps : List NameValPair} {w w' : MountWorld} {code : ℤ}
    (ok : WorldOk g w) (h : anotherKeyCallback nvps .anotherKey w = .ok (code, w')) :
    WorldOk g w' ∧ ∀ k, ¬ Touches .anotherKey k → w'.nodes k = w.nodes k := by
  obtain ⟨x, -, only⟩ := (ok .anotherKey).tl
  unfold anotherKeyCallback at h
  split at h
  · cases h
  · next found _ =>
    obtain ⟨-, rfl⟩ := Prod.mk.inj (Except.ok.inj h)
    have changed := setFirstNext_nodes only (some (if found then .select else .cipher))
    refine ⟨ok.update ?_ changed, fun k outside => ?_⟩
    · refine ⟨(ok .anotherKey).names, (ok .anotherKey).default, (ok .anotherKey).stdin,
        (ok .anotherKey).implicit, _, ?_, rfl⟩
      cases found
      · exact .inl rfl
      · exact .inr rfl
    · rw [changed, Function.update_of_ne fun same => outside (.inl same)]

theorem initKeyBytesNode_ok {name : Option CStr} {min max : ℤ} {node node' : MountNode}
    (nodeOk : NodeOk g .keyBytes node)
    (h : initKeyBytesNode name min max node = .ok (.ok node')) : NodeOk g .keyBytes node' := by
  unfold initKeyBytesNode at h
  simp only at h
  split at h
  · cases h
  · next sizes _ =>
    split_ifs at h
    · cases h
    obtain rfl := Except.ok.inj (Except.ok.inj h)
    refine ⟨nodeOk.names, nodeOk.default, nodeOk.stdin, nodeOk.implicit, fun tn among => ?_⟩
    rcases List.mem_append.mp among with among | among
    · exact nodeOk.tl tn among
    · obtain ⟨size, -, rfl⟩ := List.mem_map.mp among
      exact ⟨rfl, rfl⟩

theorem tfCipher_ok {w w' : MountWorld} {code : ℤ} (ok : WorldOk g w)
    (h : tfCipher .cipher w = .ok (code, w')) :
    WorldOk g w' ∧ ∀ k, ¬ Touches .cipher k → w'.nodes k = w.nodes k := by
  unfold tfCipher at h
  simp only at h
  split at h
  · cases h
  · split_ifs at h
    · obtain ⟨-, rfl⟩ := Prod.mk.inj (Except.ok.inj h)
      exact ⟨ok, fun _ _ => rfl⟩
    · split at h
      · cases h
      · obtain ⟨-, rfl⟩ := Prod.mk.inj (Except.ok.inj h)
        exact ⟨ok, fun _ _ => rfl⟩
      · next scan _ _ _ node filled =>
        obtain ⟨-, rfl⟩ := Prod.mk.inj (Except.ok.inj h)
        have sized : WorldOk g (({ w with stack := scan.stack } : MountWorld).setNode .keyBytes node) :=
          WorldOk.update (w := w) ok (initKeyBytesNode_ok (ok .keyBytes) filled) rfl
        have cleared := sized.onlyVal (OnlyVal.clear (n := .cipher) rfl)
        refine ⟨cleared.1, fun k outside => ?_⟩
        have other : k ≠ .keyBytes := fun same => outside (.inr (.inl ⟨rfl, same⟩))
        exact (cleared.2 k outside).trans (Function.update_of_ne other _ _)

/-- The node of the signature has no signature. -/
def NoSignature (node : MountNode) : Prop := node.val = none ∨ node.val = some (lit "NULL")

/-- The node that asks for filename encryption is linked behind the node of the signature, which led
to `x` before. -/
structure Spliced (w w' : MountWorld) (x : NodeId) : Prop where
  fnek : w'.nodes .fnekSig = { w.nodes .fnekSig with
    flags := { echoInput := true }
    tl := [defaultTransition (some .enableFilenameCrypto) (some .fnekSig)] }
  enable : w'.nodes .enableFilenameCrypto = { w.nodes .enableFilenameCrypto with
    tl := [defaultTransition (some x) (some .enableFilenameCrypto)] }
  other : ∀ k, k ≠ .fnekSig → k ≠ .enableFilenameCrypto → w'.nodes k = w.nodes k

theorem fnekSigCallback_cases {w w' : MountWorld} {code : ℤ} {x y : NodeId}
    (fnek : (w.nodes .fnekSig).tl = [defaultTransition (some x) (some .fnekSig)])
    (enable : (w.nodes .enableFilenameCrypto).tl =
      [defaultTransition (some y) (some .enableFilenameCrypto)])
    (h : fnekSigCallback .fnekSig w = .ok (code, w')) :
    code = 0 ∧ ((NoSignature (w.nodes .fnekSig) ∧ Spliced w w' x) ∨
      (¬ NoSignature (w.nodes .fnekSig) ∧ w'.nodes = w.nodes)) := by
  have spliced : ∀ w', w' = (let w₁ := w.modify .fnekSig fun node =>
        { node with flags := { echoInput := true } }
      let w₂ := setFirstNext w₁ .enableFilenameCrypto (firstNext w₁ .fnekSig)
      setFirstNext w₂ .fnekSig (some .enableFilenameCrypto)) → Spliced w w' x := by
    rintro _ rfl
    constructor
    · simp [setFirstNext, World.modify, World.setNode, fnek, defaultTransition]
    · simp [setFirstNext, firstNext, nextToken, transition, World.modify, World.setNode, fnek, enable,
        defaultTransition]
    · intro k other other'
      simp [setFirstNext, World.modify, World.setNode, other, other']
  unfold fnekSigCallback at h
  simp only at h
  split at h
  · next absent =>
    obtain ⟨rfl, eq⟩ := Prod.mk.inj (Except.ok.inj h)
    exact ⟨rfl, .inl ⟨.inl absent, spliced w' eq.symm⟩⟩
  · next v given =>
    split_ifs at h with null
    · obtain ⟨rfl, eq⟩ := Prod.mk.inj (Except.ok.inj h)
      exact ⟨rfl, .inl ⟨.inr (given.trans (congrArg some null)), spliced w' eq.symm⟩⟩
    · obtain ⟨rfl, rfl⟩ := Prod.mk.inj (Except.ok.inj h)
      refine ⟨rfl, .inr ⟨?_, rfl⟩⟩
      rintro (absent | isNull)
      · rw [given] at absent
        cases absent
      · rw [given] at isNull
        exact null (Option.some.inj isNull)

/-- The node of the signature is linked behind the node that asks for filename encryption, which led
to `y` before. -/
structure SplicedBack (w w' : MountWorld) (y : NodeId) : Prop where
  fnek : ∃ suggested, w'.nodes .fnekSig = { w.nodes .fnekSig with
    suggestedVal := suggested
    tl := [defaultTransition (some y) (some .fnekSig)] }
  enable : w'.nodes .enableFilenameCrypto = { w.nodes .enableFilenameCrypto with
    val := none
    tl := [defaultTransition (some .fnekSig) (some .enableFilenameCrypto)] }
  other : ∀ k, k ≠ .fnekSig → k ≠ .enableFilenameCrypto → w'.nodes k = w.nodes k

/-- The node that asks for filename encryption has yes for an answer. -/
def SaysYes (node : MountNode) : Prop := 0 < isYes node.val 0 ∨ node.flags.parameterSet = true

theorem getEnableFilenameCrypto_cases {w w' : MountWorld} {code : ℤ} {x y : NodeId}
    (fnek : (w.nodes .fnekSig).tl = [defaultTransition (some x) (some .fnekSig)])
    (enable : (w.nodes .enableFilenameCrypto).tl =
      [defaultTransition (some y) (some .enableFilenameCrypto)])
    (h : getEnableFilenameCrypto .enableFilenameCrypto w = .ok (code, w')) :
    (SaysYes (w.nodes .enableFilenameCrypto) ∧ SplicedBack w w' y) ∨
      (¬ SaysYes (w.nodes .enableFilenameCrypto) ∧
        w'.nodes = (clearVal w .enableFilenameCrypto).nodes) := by
  unfold getEnableFilenameCrypto at h
  simp only at h
  split_ifs at h with yes wrong
  · refine .inl ⟨yes, ?_⟩
    split at h
    · cases h
    · obtain ⟨-, rfl⟩ := Prod.mk.inj (Except.ok.inj h)
      constructor
      · refine ⟨(w.nodes .fnekSig).suggestedVal, ?_⟩
        simp [setFirstNext, firstNext, nextToken, transition, clearVal, World.modify, World.setNode,
          fnek, enable, defaultTransition]
      · simp [setFirstNext, clearVal, World.modify, World.setNode, enable, defaultTransition]
      · intro k other other'
        simp [setFirstNext, clearVal, World.modify, World.setNode, other, other']
    · next sig _ =>
      obtain ⟨-, rfl⟩ := Prod.mk.inj (Except.ok.inj h)
      constructor
      · refine ⟨some sig, ?_⟩
        simp [setFirstNext, firstNext, nextToken, transition, clearVal, World.modify, World.setNode,
          fnek, enable, defaultTransition]
      · simp [setFirstNext, clearVal, World.modify, World.setNode, enable, defaultTransition]
      · intro k other other'
        simp [setFirstNext, clearVal, World.modify, World.setNode, other, other']
  · obtain ⟨-, rfl⟩ := Prod.mk.inj (Except.ok.inj h)
    exact .inr ⟨yes, rfl⟩
  · obtain ⟨-, rfl⟩ := Prod.mk.inj (Except.ok.inj h)
    exact .inr ⟨yes, rfl⟩

theorem fnekSigCallback_ok {w w' : MountWorld} {code : ℤ} (ok : WorldOk g w)
    (h : fnekSigCallback .fnekSig w = .ok (code, w')) :
    WorldOk g w' ∧ ∀ k, ¬ Touches .fnekSig k → w'.nodes k = w.nodes k := by
  obtain ⟨x, fnek⟩ := (ok .fnekSig).tl
  obtain ⟨y, enable⟩ := (ok .enableFilenameCrypto).tl
  obtain ⟨-, ⟨-, spliced⟩ | ⟨-, same⟩⟩ := fnekSigCallback_cases fnek enable h
  · refine ⟨fun k => ?_, fun k outside => spliced.other k (fun e => outside (.inl e))
      fun e => outside (.inr (.inr (.inl ⟨rfl, e⟩)))⟩
    by_cases isFnek : k = .fnekSig
    · subst isFnek
      rw [spliced.fnek]
      exact ⟨(ok .fnekSig).names, (ok .fnekSig).default, rfl, fun h => (by cases h), _, rfl⟩
    · by_cases isEnable : k = .enableFilenameCrypto
      · subst isEnable
        rw [spliced.enable]
        exact ⟨(ok .enableFilenameCrypto).names, (ok .enableFilenameCrypto).default,
          (ok .enableFilenameCrypto).stdin, (ok .enableFilenameCrypto).implicit, _, rfl⟩
      · rw [spliced.other k isFnek isEnable]
        exact ok k
  · exact ok.onlyVal (.of_nodes same)

theorem getEnableFilenameCrypto_ok {w w' : MountWorld} {code : ℤ} (ok : WorldOk g w)
    (h : getEnableFilenameCrypto .enableFilenameCrypto w = .ok (code, w')) :
    WorldOk g w' ∧ ∀ k, ¬ Touches .enableFilenameCrypto k → w'.nodes k = w.nodes k := by
  obtain ⟨x, fnek⟩ := (ok .fnekSig).tl
  obtain ⟨y, enable⟩ := (ok .enableFilenameCrypto).tl
  obtain ⟨-, spliced⟩ | ⟨-, same⟩ := getEnableFilenameCrypto_cases fnek enable h
  · refine ⟨fun k => ?_, fun k outside => spliced.other k
      (fun e => outside (.inr (.inr (.inr ⟨rfl, e⟩)))) fun e => outside (.inl e)⟩
    by_cases isFnek : k = .fnekSig
    · subst isFnek
      obtain ⟨suggested, eq⟩ := spliced.fnek
      rw [eq]
      exact ⟨(ok .fnekSig).names, (ok .fnekSig).default, (ok .fnekSig).stdin,
        (ok .fnekSig).implicit, _, rfl⟩
    · by_cases isEnable : k = .enableFilenameCrypto
      · subst isEnable
        rw [spliced.enable]
        exact ⟨(ok .enableFilenameCrypto).names, (ok .enableFilenameCrypto).default,
          (ok .enableFilenameCrypto).stdin, (ok .enableFilenameCrypto).implicit, _, rfl⟩
      · rw [spliced.other k isFnek isEnable]
        exact ok k
  · exact ok.onlyVal (.clear same)

/-- The callbacks keep the graph in order and only touch the nodes they are meant for. -/
theorem mountCall_ok (graph : KeyGraph g mods) {n : NodeId} {f : Callback}
    {nvps : List NameValPair} {w w' : MountWorld} {code : ℤ} {tn : TransitionNode NodeId Callback}
    (ok : WorldOk g w) (among : tn ∈ (w.nodes n).tl) (isFunc : tn.transFunc = some f)
    (h : mountCall (moduleCalls mods) f n nvps w = .ok (code, w')) :
    WorldOk g w' ∧ ∀ k, ¬ Touches n k → w'.nodes k = w.nodes k := by
  have shape := (ok n).tl
  have feature : n ∈ featureNodes → (w.nodes n).tl = (g n).tl → featureCallback n = some f :=
    fun inside same => ((graph.features n inside tn (same ▸ among)).1.symm.trans isFunc)
  cases n with
  | root =>
    obtain ⟨x, -, tl⟩ := shape
    rw [tl, List.mem_singleton] at among
    obtain rfl := Option.some.inj (isFunc.symm.trans (congrArg TransitionNode.transFunc among))
    exact sigCallback_ok ok h
  | select =>
    obtain ⟨f', tl, isModule⟩ := graph.select
    rw [shape, tl, List.mem_singleton] at among
    obtain rfl : f' = some f := (congrArg TransitionNode.transFunc among).symm.trans isFunc
    rcases isModule with none_ | ⟨c, isModule⟩
    · cases none_
    · obtain rfl := Option.some.inj isModule
      exact ok.onlyVal (graph.calls c _ _ _ _ _ h)
  | cipher =>
    obtain rfl := Option.some.inj (isFunc.symm.trans (graph.cipher tn (shape ▸ among)).2)
    exact tfCipher_ok ok h
  | keyBytes =>
    obtain rfl := Option.some.inj (isFunc.symm.trans (shape tn among).2)
    exact ok.onlyVal (tfKeyBytes_onlyVal h)
  | versionSupport => cases feature (by decide) shape
  | passthrough =>
    obtain rfl := Option.some.inj (feature (by decide) shape)
    exact ok.onlyVal (stackPushIfYes_onlyVal h)
  | hmac =>
    obtain rfl := Option.some.inj (feature (by decide) shape)
    exact ok.onlyVal (stackPushIfYes_onlyVal h)
  | xattr =>
    obtain rfl := Option.some.inj (feature (by decide) shape)
    exact ok.onlyVal (stackPushIfYes_onlyVal h)
  | encryptedPassthrough =>
    obtain rfl := Option.some.inj (feature (by decide) shape)
    exact ok.onlyVal (stackPushIfYes_onlyVal h)
  | fnekSig =>
    obtain ⟨x, tl⟩ := shape
    rw [tl, List.mem_singleton] at among
    obtain rfl := Option.some.inj (isFunc.symm.trans (congrArg TransitionNode.transFunc among))
    exact fnekSigCallback_ok ok h
  | enableFilenameCrypto =>
    obtain ⟨x, tl⟩ := shape
    rw [tl, List.mem_singleton] at among
    obtain rfl := Option.some.inj (isFunc.symm.trans (congrArg TransitionNode.transFunc among))
    exact getEnableFilenameCrypto_ok ok h
  | anotherKey =>
    obtain ⟨x, -, tl⟩ := shape
    rw [tl, List.mem_singleton] at among
    obtain rfl := Option.some.inj (isFunc.symm.trans (congrArg TransitionNode.transFunc among))
    exact anotherKeyCallback_ok ok h
  | end_ =>
    rw [shape, graph.ends.1] at among
    cases among
  | dummy =>
    rw [shape, graph.ends.2] at among
    cases among
  | mod m k =>
    obtain ⟨c, rfl⟩ := graph.modFuncs m k tn (shape ▸ among) f isFunc
    exact ok.onlyVal (graph.calls c _ _ _ _ _ h)

end Ecryptfs
