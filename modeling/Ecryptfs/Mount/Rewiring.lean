import Ecryptfs.Mount.Callbacks

/-!
# What callbacks rewire

One description of everything that the callbacks of the mount graph do to its nodes, whatever the
graph looks like: names and defaults stay, no transition changes its function, and a transition is
only redirected to where the callback sends it.  The invariants of evaluations of the mount graph
with any key modules are derived from it.
-/

namespace Ecryptfs

/-- The nodes in `A` may have changed: all but their names, defaults and functions, and their
transitions may lead to nodes in `T`.  The key-bytes node gets transitions of its own. -/
structure Rewired (A : NodeId → Prop) (T : Option NodeId → Prop) (w w' : MountWorld) : Prop where
  other : ∀ k, ¬ A k → w'.nodes k = w.nodes k
  names : ∀ k, (w'.nodes k).mntOptNames = (w.nodes k).mntOptNames
  default : ∀ k, (w'.nodes k).defaultVal = (w.nodes k).defaultVal
  implicit : ∀ k, (w'.nodes k).flags.allowImplicitTransition = true →
    (w.nodes k).flags.allowImplicitTransition = true
  func : ∀ k, ∀ tn ∈ (w'.nodes k).tl, (∃ tn₀ ∈ (w.nodes k).tl, tn.transFunc = tn₀.transFunc) ∨
    (k = .keyBytes ∧ tn.transFunc = some .keyBytes)
  next : ∀ k, ∀ tn ∈ (w'.nodes k).tl, (∃ tn₀ ∈ (w.nodes k).tl, tn.nextToken = tn₀.nextToken) ∨
    T tn.nextToken

variable {A : NodeId → Prop} {T : Option NodeId → Prop} {w w' w'' : MountWorld} {n : NodeId} {code : ℤ}

theorem Rewired.of_nodes (same : w'.nodes = w.nodes) : Rewired A T w w' := by
  refine ⟨?_, ?_, ?_, ?_, ?_, ?_⟩ <;> rw [same]
  · exact fun _ _ => rfl
  · exact fun _ => rfl
  · exact fun _ => rfl
  · exact fun _ => id
  · exact fun k tn among => .inl ⟨tn, among, rfl⟩
  · exact fun k tn among => .inl ⟨tn, among, rfl⟩

theorem Rewired.trans (first : Rewired A T w w') (second : Rewired A T w' w'') :
    Rewired A T w w'' := by
  refine ⟨fun k outside => ?_, fun k => ?_, fun k => ?_, fun k implicit => ?_, fun k tn among => ?_,
    fun k tn among => ?_⟩
  · rw [second.other k outside, first.other k outside]
  · rw [second.names, first.names]
  · rw [second.default, first.default]
  · exact first.implicit k (second.implicit k implicit)
  · rcases second.func k tn among with ⟨tn₁, among₁, same⟩ | added
    · rw [same]
      exact first.func k tn₁ among₁
    · exact .inr added
  · rcases second.next k tn among with ⟨tn₁, among₁, same⟩ | target
    · rw [same]
      exact first.next k tn₁ among₁
    · exact .inr target

/-- A node is replaced by one that only differs in what may change. -/
theorem Rewired.setNode {node : MountNode} (inside : A n)
    (names : node.mntOptNames = (w.nodes n).mntOptNames)
    (default_ : node.defaultVal = (w.nodes n).defaultVal)
    (implicit : node.flags.allowImplicitTransition = true →
      (w.nodes n).flags.allowImplicitTransition = true)
    (func : ∀ tn ∈ node.tl, (∃ tn₀ ∈ (w.nodes n).tl, tn.transFunc = tn₀.transFunc) ∨
      (n = .keyBytes ∧ tn.transFunc = some .keyBytes))
    (next : ∀ tn ∈ node.tl, (∃ tn₀ ∈ (w.nodes n).tl, tn.nextToken = tn₀.nextToken) ∨
      T tn.nextToken) : Rewired A T w (w.setNode n node) := by
  have self := w.nodes_setNode_self n node
  have others : ∀ k, k ≠ n → (w.setNode n node).nodes k = w.nodes k :=
    fun k other => w.nodes_setNode_of_ne node other
  have unchanged : ∀ {B : MountNode → MountNode → Prop}, B node (w.nodes n) →
      (∀ k, B (w.nodes k) (w.nodes k)) → ∀ k, B ((w.setNode n node).nodes k) (w.nodes k) := by
    intro B here elsewhere k
    by_cases same : k = n
    · rw [same, self]
      exact here
    · rw [others k same]
      exact elsewhere k
  refine ⟨fun k outside => others k fun same => outside (same ▸ inside), ?_, ?_, ?_, ?_, ?_⟩
  · exact unchanged (B := fun a b => a.mntOptNames = b.mntOptNames) names fun _ => rfl
  · exact unchanged (B := fun a b => a.defaultVal = b.defaultVal) default_ fun _ => rfl
  · exact unchanged (B := fun a b => a.flags.allowImplicitTransition = true →
      b.flags.allowImplicitTransition = true) implicit fun _ => id
  · intro k tn among
    by_cases same : k = n
    · rw [same, self] at among
      rw [same]
      exact func tn among
    · rw [others k same] at among
      exact .inl ⟨tn, among, rfl⟩
  · intro k tn among
    by_cases same : k = n
    · rw [same, self] at among
      rw [same]
      exact next tn among
    · rw [others k same] at among
      exact .inl ⟨tn, among, rfl⟩

/-- Only the value, the suggested value and the flags of a node change. -/
theorem Rewired.fields (inside : A n) (f : MountNode → MountNode)
    (names : (f (w.nodes n)).mntOptNames = (w.nodes n).mntOptNames)
    (default_ : (f (w.nodes n)).defaultVal = (w.nodes n).defaultVal)
    (implicit : (f (w.nodes n)).flags.allowImplicitTransition = true →
      (w.nodes n).flags.allowImplicitTransition = true)
    (tl : (f (w.nodes n)).tl = (w.nodes n).tl) : Rewired A T w (w.modify n f) := by
  refine .setNode inside names default_ implicit (fun tn among => ?_) fun tn among => ?_
  · exact .inl ⟨tn, tl ▸ among, rfl⟩
  · exact .inl ⟨tn, tl ▸ among, rfl⟩

theorem Rewired.clearVal (inside : A n) : Rewired A T w (clearVal w n) :=
  .fields inside _ rfl rfl id rfl

theorem Rewired.setFirstNext {x : Option NodeId} (inside : A n) (target : T x) :
    Rewired A T w (setFirstNext w n x) := by
  have origin : ∀ tn ∈ (w.nodes n).tl.modifyHead fun tn => { tn with nextToken := x },
      (∃ tn₀ ∈ (w.nodes n).tl, tn.transFunc = tn₀.transFunc) ∧
      ((∃ tn₀ ∈ (w.nodes n).tl, tn.nextToken = tn₀.nextToken) ∨ tn.nextToken = x) := by
    intro tn among
    cases all : (w.nodes n).tl with
    | nil =>
      rw [all] at among
      cases among
    | cons head tail =>
      rw [all, List.modifyHead_cons] at among
      rcases List.mem_cons.mp among with rfl | among
      · exact ⟨⟨head, List.mem_cons_self, rfl⟩, .inr rfl⟩
      · exact ⟨⟨tn, List.mem_cons_of_mem _ among, rfl⟩, .inl ⟨tn, List.mem_cons_of_mem _ among, rfl⟩⟩
  refine .setNode inside rfl rfl id (fun tn among => .inl (origin tn among).1) fun tn among => ?_
  rcases (origin tn among).2 with same | isX
  · exact .inl same
  · exact .inr (isX ▸ target)

/-! ## The callbacks of the graph -/

/-- The nodes that a callback called at node `n` may change. -/
def graphTouches (n k : NodeId) : Prop := k = n ∨ k ∈ [.keyBytes, .fnekSig, .enableFilenameCrypto]

/-- Where a callback called at node `n` may send a transition. -/
def graphTargets (w : MountWorld) (n : NodeId) : Callback → Option NodeId → Prop
  | .sig, x => x = some .select
  | .anotherKey, x => x = some .select ∨ x = some .cipher
  | .cipher, x => x = some .versionSupport
  | .fnekSig, x => x = firstNext w n ∨ x = some .enableFilenameCrypto
  | .enableFilenameCrypto, x => x = firstNext w n ∨ x = some .fnekSig
  | _, _ => False

theorem graphTouches_self (n : NodeId) : graphTouches n n := .inl rfl

theorem stackPushIfYes_rewired {optName : String} (h : stackPushIfYes optName n w = .ok (code, w')) :
    Rewired (graphTouches n) T w w' := by
  obtain ⟨v, nodes⟩ := stackPushIfYes_onlyVal h
  have set : Rewired (graphTouches n) T w (w.setNode n { w.nodes n with val := v }) :=
    .fields (n := n) (.inl rfl) (fun node => { node with val := v }) rfl rfl id rfl
  exact set.trans (.of_nodes nodes)

theorem sigCallback_rewired (h : sigCallback n w = .ok (code, w')) :
    Rewired (graphTouches n) (graphTargets w n .sig) w w' := by
  unfold sigCallback at h
  split at h
  · obtain ⟨-, rfl⟩ := Prod.mk.inj (Except.ok.inj h)
    exact .setFirstNext (.inl rfl) rfl
  · split_ifs at h
    · obtain ⟨-, rfl⟩ := Prod.mk.inj (Except.ok.inj h)
      exact .setFirstNext (.inl rfl) rfl
    · obtain ⟨-, rfl⟩ := Prod.mk.inj (Except.ok.inj h)
      exact .of_nodes rfl

theorem anotherKeyCallback_rewired {nvps : List NameValPair}
    (h : anotherKeyCallback nvps n w = .ok (code, w')) :
    Rewired (graphTouches n) (graphTargets w n .anotherKey) w w' := by
  unfold anotherKeyCallback at h
  split at h
  · cases h
  · next found _ =>
    obtain ⟨-, rfl⟩ := Prod.mk.inj (Except.ok.inj h)
    apply Rewired.setFirstNext (.inl rfl)
    cases found
    · exact .inr rfl
    · exact .inl rfl

theorem fnekSigCallback_rewired (h : fnekSigCallback n w = .ok (code, w')) :
    Rewired (graphTouches n) (graphTargets w n .fnekSig) w w' := by
  have spliced : Rewired (graphTouches n) (graphTargets w n .fnekSig) w
      (let w₁ := w.modify n fun node => { node with flags := { echoInput := true } }
       let w₂ := setFirstNext w₁ .enableFilenameCrypto (firstNext w₁ n)
       setFirstNext w₂ n (some .enableFilenameCrypto)) := by
    have flags : Rewired (graphTouches n) (graphTargets w n .fnekSig) w
        (w.modify n fun node => { node with flags := { echoInput := true } }) :=
      .fields (.inl rfl) _ rfl rfl (fun set => by cases set) rfl
    have same : firstNext (w.modify n fun node => { node with flags := { echoInput := true } }) n =
        firstNext w n := by
      unfold firstNext nextToken transition World.modify
      rw [World.nodes_setNode_self]
    refine flags.trans ((Rewired.setFirstNext (.inr (by simp)) (.inl same)).trans
      (.setFirstNext (.inl rfl) (.inr rfl)))
  unfold fnekSigCallback at h
  simp only at h
  split at h
  · obtain ⟨-, rfl⟩ := Prod.mk.inj (Except.ok.inj h)
    exact spliced
  · split_ifs at h
    · obtain ⟨-, rfl⟩ := Prod.mk.inj (Except.ok.inj h)
      exact spliced
    · obtain ⟨-, rfl⟩ := Prod.mk.inj (Except.ok.inj h)
      exact .of_nodes rfl

theorem getEnableFilenameCrypto_rewired (h : getEnableFilenameCrypto n w = .ok (code, w')) :
    Rewired (graphTouches n) (graphTargets w n .enableFilenameCrypto) w w' := by
  have inside : graphTouches n .fnekSig := .inr (by simp)
  have spliced : Rewired (graphTouches n) (graphTargets w n .enableFilenameCrypto) w
      (setFirstNext (w.modify .fnekSig fun node =>
        { node with tl := node.tl.map fun tn => { tn with nextToken := firstNext w n } }) n
        (some .fnekSig)) := by
    have redirected : Rewired (graphTouches n) (graphTargets w n .enableFilenameCrypto) w
        (w.modify .fnekSig fun node =>
          { node with tl := node.tl.map fun tn => { tn with nextToken := firstNext w n } }) := by
      refine .setNode inside rfl rfl id (fun tn among => ?_) fun tn among => ?_
      · obtain ⟨tn₀, among₀, rfl⟩ := List.mem_map.mp among
        exact .inl ⟨tn₀, among₀, rfl⟩
      · obtain ⟨tn₀, among₀, rfl⟩ := List.mem_map.mp among
        exact .inr (.inl rfl)
    exact redirected.trans (.setFirstNext (graphTouches_self n) (.inr rfl))
  unfold getEnableFilenameCrypto at h
  simp only at h
  split_ifs at h
  · split at h
    · cases h
    · obtain ⟨-, rfl⟩ := Prod.mk.inj (Except.ok.inj h)
      exact spliced.trans (.clearVal (.inl rfl))
    · obtain ⟨-, rfl⟩ := Prod.mk.inj (Except.ok.inj h)
      exact spliced.trans (Rewired.trans (.fields inside _ rfl rfl id rfl) (.clearVal (.inl rfl)))
  · obtain ⟨-, rfl⟩ := Prod.mk.inj (Except.ok.inj h)
    exact .clearVal (.inl rfl)
  · obtain ⟨-, rfl⟩ := Prod.mk.inj (Except.ok.inj h)
    exact .clearVal (.inl rfl)

theorem tfKeyBytes_rewired (h : tfKeyBytes n w = .ok (code, w')) :
    Rewired (graphTouches n) T w w' := by
  obtain ⟨-, rfl⟩ := Prod.mk.inj (Except.ok.inj h)
  have cleared : Rewired (graphTouches n) T w (clearVal w n) := .clearVal (graphTouches_self n)
  exact cleared.trans (.of_nodes rfl)

theorem initKeyBytesNode_cases {name : Option CStr} {min max : ℤ} {node node' : MountNode}
    (h : initKeyBytesNode name min max node = .ok (.ok node')) :
    ∃ (sizes : List ℕ) (suggested : Option CStr), node' = { node with
      suggestedVal := suggested
      tl := node.tl ++ sizes.map fun size =>
        ⟨some (decimalText size), some .versionSupport, some .keyBytes⟩ } := by
  unfold initKeyBytesNode at h
  simp only at h
  split at h
  · cases h
  · next sizes _ =>
    split_ifs at h
    · cases h
    · obtain rfl := Except.ok.inj (Except.ok.inj h)
      exact ⟨sizes, _, rfl⟩

theorem tfCipher_rewired (h : tfCipher n w = .ok (code, w')) :
    Rewired (graphTouches n) (graphTargets w n .cipher) w w' := by
  unfold tfCipher at h
  simp only at h
  split at h
  · cases h
  · next scan _ =>
    split_ifs at h
    · obtain ⟨-, rfl⟩ := Prod.mk.inj (Except.ok.inj h)
      exact .of_nodes rfl
    · split at h
      · cases h
      · obtain ⟨-, rfl⟩ := Prod.mk.inj (Except.ok.inj h)
        exact .of_nodes rfl
      · next node filled =>
        obtain ⟨-, rfl⟩ := Prod.mk.inj (Except.ok.inj h)
        obtain ⟨sizes, suggested, rfl⟩ := initKeyBytesNode_cases filled
        have filled : Rewired (graphTouches n) (graphTargets w n .cipher) w
            (w.setNode .keyBytes { w.nodes .keyBytes with
              suggestedVal := suggested
              tl := (w.nodes .keyBytes).tl ++ sizes.map fun size =>
                ⟨some (decimalText size), some .versionSupport, some .keyBytes⟩ }) := by
          refine .setNode (.inr (by simp)) rfl rfl id (fun tn among => ?_) fun tn among => ?_
          · rcases List.mem_append.mp among with old | new
            · exact .inl ⟨tn, old, rfl⟩
            · obtain ⟨size, -, rfl⟩ := List.mem_map.mp new
              exact .inr ⟨rfl, rfl⟩
          · rcases List.mem_append.mp among with old | new
            · exact .inl ⟨tn, old, rfl⟩
            · obtain ⟨size, -, rfl⟩ := List.mem_map.mp new
              exact .inr rfl
        exact (filled.trans (.clearVal (graphTouches_self n))).trans (.of_nodes rfl)

/-- A callback of the graph itself, not of a key module. -/
def Callback.IsGraph : Callback → Prop
  | .mod _ _ => False
  | _ => True

/-- **What the callbacks of the graph rewire.** -/
theorem mountCall_rewired {mods : List GraphModule} {f : Callback} {nvps : List NameValPair}
    (isGraph : f.IsGraph) (h : mountCall (moduleCalls mods) f n nvps w = .ok (code, w')) :
    Rewired (graphTouches n) (graphTargets w n f) w w' := by
  cases f with
  | sig => exact sigCallback_rewired h
  | hmac => exact stackPushIfYes_rewired h
  | passthrough => exact stackPushIfYes_rewired h
  | xattr => exact stackPushIfYes_rewired h
  | encryptedPassthrough => exact stackPushIfYes_rewired h
  | fnekSig => exact fnekSigCallback_rewired h
  | enableFilenameCrypto => exact getEnableFilenameCrypto_rewired h
  | keyBytes => exact tfKeyBytes_rewired h
  | cipher => exact tfCipher_rewired h
  | anotherKey => exact anotherKeyCallback_rewired h
  | mod m c => exact isGraph.elim

theorem OnlyVal.other {k : NodeId} (only : OnlyVal n w w') (other : k ≠ n) : w'.nodes k = w.nodes k := by
  obtain ⟨v, nodes⟩ := only
  rw [nodes, Function.update_of_ne other]

/-- The callbacks of the graph, apart from those of filename encryption, work on their own node and on
the key-bytes node. -/
theorem mountCall_elsewhere {mods : List GraphModule} {f : Callback} {nvps : List NameValPair}
    {k : NodeId} (isGraph : f.IsGraph) (noFilename : f ≠ .fnekSig ∧ f ≠ .enableFilenameCrypto)
    (other : k ≠ n) (noKeyBytes : k ≠ .keyBytes)
    (h : mountCall (moduleCalls mods) f n nvps w = .ok (code, w')) : w'.nodes k = w.nodes k := by
  have redirected : ∀ x, (setFirstNext w n x).nodes k = w.nodes k :=
    fun x => w.nodes_setNode_of_ne _ other
  cases f with
  | fnekSig => exact absurd rfl noFilename.1
  | enableFilenameCrypto => exact absurd rfl noFilename.2
  | hmac => exact (stackPushIfYes_onlyVal h).other other
  | passthrough => exact (stackPushIfYes_onlyVal h).other other
  | xattr => exact (stackPushIfYes_onlyVal h).other other
  | encryptedPassthrough => exact (stackPushIfYes_onlyVal h).other other
  | keyBytes => exact (tfKeyBytes_onlyVal h).other other
  | sig =>
    change sigCallback n w = _ at h
    unfold sigCallback at h
    split at h
    · obtain ⟨-, rfl⟩ := Prod.mk.inj (Except.ok.inj h)
      exact redirected _
    · split_ifs at h
      · obtain ⟨-, rfl⟩ := Prod.mk.inj (Except.ok.inj h)
        exact redirected _
      · obtain ⟨-, rfl⟩ := Prod.mk.inj (Except.ok.inj h)
        rfl
  | anotherKey =>
    change anotherKeyCallback nvps n w = _ at h
    unfold anotherKeyCallback at h
    split at h
    · cases h
    · obtain ⟨-, rfl⟩ := Prod.mk.inj (Except.ok.inj h)
      exact redirected _
  | cipher =>
    change tfCipher n w = _ at h
    unfold tfCipher at h
    simp only at h
    split at h
    · cases h
    · split_ifs at h
      · obtain ⟨-, rfl⟩ := Prod.mk.inj (Except.ok.inj h)
        rfl
      · split at h
        · cases h
        · obtain ⟨-, rfl⟩ := Prod.mk.inj (Except.ok.inj h)
          rfl
        · next node _ =>
          obtain ⟨-, rfl⟩ := Prod.mk.inj (Except.ok.inj h)
          have sized := w.nodes_setNode_of_ne node noKeyBytes
          exact (World.nodes_setNode_of_ne _ _ other).trans sized
  | mod m c => exact isGraph.elim

/-! ## Parts of the graph -/

/-- Transitions that lead to the given nodes, and call the given callbacks. -/
structure LinksWithin (part : List NodeId) (funcs : List Callback)
    (tl : List (TransitionNode NodeId Callback)) : Prop where
  next : ∀ tn ∈ tl, ∀ x, tn.nextToken = some x → x ∈ part
  func : ∀ tn ∈ tl, ∀ f, tn.transFunc = some f → f ∈ funcs

/-- A part of the graph with the features that is not left: neither by the transitions of its nodes as
they are declared nor by what its callbacks redirect. -/
structure IsPart (part : List NodeId) (funcs : List Callback) : Prop where
  declared : ∀ n ∈ part, ∀ tn ∈ (staticNode n).tl,
    (∀ x ∈ tn.nextToken, x ∈ part) ∧ ∀ f ∈ tn.transFunc, f ∈ funcs
  features : ∀ n ∈ versioned, n ≠ .cipher → n ∈ part
  noSelect : .select ∉ part
  noModule : ∀ m k, .mod m k ∉ part
  noKey : .sig ∉ funcs ∧ .anotherKey ∉ funcs
  noCall : ∀ m c, .mod m c ∉ funcs
  keyBytes : .keyBytes ∈ part → .keyBytes ∈ funcs

variable {part : List NodeId} {funcs : List Callback}

theorem IsPart.isGraph (isPart : IsPart part funcs) {f : Callback} (inside : f ∈ funcs) : f.IsGraph := by
  cases f with
  | mod m c => exact absurd inside (isPart.noCall m c)
  | _ => trivial

/-- The features of a version are in the part, and so its nodes other than the cipher do not lead out. -/
theorem IsPart.start (isPart : IsPart part funcs) {version : UInt32} {nodes : NodeId → MountNode}
    (static : Static nodes) (inside : n ∈ part) (noCipher : n ≠ .cipher) :
    LinksWithin part funcs (fillInVersionSupport version nodes n).tl := by
  have same : nodes n = staticNode n := by
    apply static.same n
    · rintro rfl
      exact isPart.noSelect inside
    · rintro m k rfl
      exact isPart.noModule m k inside
  refine ⟨fun tn among x leads => ?_, fun tn among f isFunc => ?_⟩
  · obtain ⟨tn₀, among₀, -, old | ⟨y, isY, -, member⟩⟩ := fillInVersionSupport_tl noCipher among
    · rw [same] at among₀
      exact (isPart.declared n inside tn₀ among₀).1 x (old.symm.trans leads)
    · obtain rfl := Option.some.inj (isY.symm.trans leads)
      obtain ⟨kind, other, -⟩ := featureChain_versioned version y member
      exact isPart.features y kind other
  · obtain ⟨tn₀, among₀, func, -⟩ := fillInVersionSupport_tl noCipher among
    rw [same] at among₀
    exact (isPart.declared n inside tn₀ among₀).2 f (func.symm.trans isFunc)

/-- **A part of the graph is not left:** calls at its nodes only redirect transitions into it. -/
theorem IsPart.called (isPart : IsPart part funcs) {mods : List GraphModule} {nvps : List NameValPair}
    (links : ∀ k ∈ part, LinksWithin part funcs (w.nodes k).tl) (inside : n ∈ part) {f : Callback}
    (isFunc : f ∈ funcs) (h : mountCall (moduleCalls mods) f n nvps w = .ok (code, w')) :
    ∀ k ∈ part, LinksWithin part funcs (w'.nodes k).tl := by
  have rewired := mountCall_rewired (isPart.isGraph isFunc) h
  have firstInside : ∀ x, firstNext w n = some x → x ∈ part := by
    intro x found
    obtain ⟨tn₀, there, leads⟩ := Option.bind_eq_some_iff.mp found
    exact (links n inside).next tn₀ (List.mem_of_getElem? there) x leads
  have targets : ∀ x, graphTargets w n f (some x) → x ∈ part := by
    intro x target
    cases f with
    | sig => exact absurd isFunc isPart.noKey.1
    | anotherKey => exact absurd isFunc isPart.noKey.2
    | cipher =>
      obtain rfl := Option.some.inj target
      exact isPart.features _ (by decide) (by decide)
    | fnekSig =>
      rcases target with first | same
      · exact firstInside x first.symm
      · obtain rfl := Option.some.inj same
        exact isPart.features _ (by decide) (by decide)
    | enableFilenameCrypto =>
      rcases target with first | same
      · exact firstInside x first.symm
      · obtain rfl := Option.some.inj same
        exact isPart.features _ (by decide) (by decide)
    | _ => exact target.elim
  intro k inside'
  refine ⟨fun tn' among' x leads => ?_, fun tn' among' f' isFunc' => ?_⟩
  · rcases rewired.next k tn' among' with ⟨tn₀, among₀, same⟩ | target
    · exact (links k inside').next tn₀ among₀ x (same.symm.trans leads)
    · rw [leads] at target
      exact targets x target
  · rcases rewired.func k tn' among' with ⟨tn₀, among₀, same⟩ | ⟨rfl, isKeyBytes⟩
    · exact (links k inside').func tn₀ among₀ f' (same.symm.trans isFunc')
    · obtain rfl := Option.some.inj (isKeyBytes.symm.trans isFunc')
      exact isPart.keyBytes inside'

/-! ## The signatures on the stack -/

/-- A mount parameter `ecryptfs_sig=`. -/
def isSignature : Option CStr → Bool
  | some v => (lit "ecryptfs_sig=").isPrefixOf v
  | none => false

/-- The `ecryptfs_sig=` parameters on the stack, the last one first. -/
def signatures (stack : List (Option CStr)) : List (Option CStr) := stack.filter isSignature

/-- No signature on the stack sets a limit for the key size. -/
def PlainSignatures (stack : List (Option CStr)) : Prop :=
  ∀ v ∈ signatures stack, strstr (v.getD []) (lit "max_key_bytes=") = false ∧
    strstr (v.getD []) (lit "min_key_bytes=") = false

theorem isSignature_cipher (v : CStr) : isSignature (param "ecryptfs_cipher=" v) = false := rfl

theorem isSignature_keyBytes (v : CStr) : isSignature (param "ecryptfs_key_bytes=" v) = false := rfl

theorem isSignature_fnek (v : CStr) : isSignature (param "ecryptfs_fnek_sig=" v) = false := rfl

theorem isSignature_sig (v : CStr) : isSignature (param "ecryptfs_sig=" v) = true := by
  unfold isSignature param
  simp

theorem signatures_cons (v : Option CStr) (stack : List (Option CStr)) :
    signatures (v :: stack) = if isSignature v then v :: signatures stack else signatures stack := by
  unfold signatures
  rw [List.filter_cons]

/-- A parameter that is no signature is pushed. -/
theorem signatures_pushed {v : Option CStr} (other : isSignature v = false) (stack : List (Option CStr)) :
    signatures (v :: stack) = signatures stack := by
  rw [signatures_cons, other, if_neg Bool.false_ne_true]

theorem PlainSignatures.tail {v : Option CStr} {stack : List (Option CStr)}
    (plain : PlainSignatures (v :: stack)) : PlainSignatures stack := by
  intro u inside
  apply plain u
  rw [signatures_cons]
  split_ifs
  · exact List.mem_cons_of_mem v inside
  · exact inside

/-- An entry that sets a limit is no signature. -/
theorem PlainSignatures.noLimit {v : Option CStr} {stack : List (Option CStr)}
    (plain : PlainSignatures (v :: stack)) (isSig : isSignature v = true) :
    keyBytesLimit "max_key_bytes=" (v.getD []) = .ok none ∧
      keyBytesLimit "min_key_bytes=" (v.getD []) = .ok none := by
  have inside : v ∈ signatures (v :: stack) := by
    rw [signatures_cons, if_pos isSig]
    exact List.mem_cons_self
  obtain ⟨noMax, noMin⟩ := plain v inside
  unfold keyBytesLimit
  rw [noMax, noMin]
  exact ⟨rfl, rfl⟩

/-- Looking for limits leaves the signatures on the stack. -/
theorem scanKeyBytes_signatures {stack : List (Option CStr)} {min max : ℤ} {scan : KeyBytesScan}
    (plain : PlainSignatures stack) (h : scanKeyBytes stack min max = .ok scan) :
    signatures scan.stack = signatures stack := by
  fun_induction scanKeyBytes stack min max generalizing scan with
  | case1 => rw [← Except.ok.inj h]
  | case2 => rw [← Except.ok.inj h]
  | case3 => rw [← Except.ok.inj h]
  | case4 v rest min max noMin noMax ih =>
    cases scanned : scanKeyBytes rest min max with
    | error e =>
      rw [scanned] at h
      cases h
    | ok scan' =>
      rw [scanned] at h
      obtain rfl := Except.ok.inj h
      rw [signatures_cons, signatures_cons, ih plain.tail scanned]
  | case5 => cases h
  | case6 v min max newMax newMin limit isMin isMax u rest ih =>
    have noSig : isSignature v = false := by
      by_contra isSig
      rw [Bool.not_eq_false] at isSig
      obtain ⟨noMax, noMin⟩ := plain.noLimit isSig
      exact limit (Except.ok.inj (isMax.symm.trans noMax)) (Except.ok.inj (isMin.symm.trans noMin))
    cases scanned : scanKeyBytes rest (newMin.getD min) (newMax.getD max) with
    | error e =>
      rw [scanned] at h
      cases h
    | ok scan' =>
      rw [scanned] at h
      obtain rfl := Except.ok.inj h
      rw [signatures_pushed noSig, signatures_cons, signatures_cons, ih plain.tail.tail scanned]

theorem stackPushIfYes_signatures {optName : String} (other : isSignature (some (lit optName)) = false)
    (h : stackPushIfYes optName n w = .ok (code, w')) : signatures w'.stack = signatures w.stack := by
  unfold stackPushIfYes at h
  simp only at h
  split_ifs at h
  · obtain ⟨-, rfl⟩ := Prod.mk.inj (Except.ok.inj h)
    exact signatures_pushed other _
  · obtain ⟨-, rfl⟩ := Prod.mk.inj (Except.ok.inj h)
    rfl
  · obtain ⟨-, rfl⟩ := Prod.mk.inj (Except.ok.inj h)
    rfl

theorem fnekSigCallback_signatures (h : fnekSigCallback n w = .ok (code, w')) :
    signatures w'.stack = signatures w.stack := by
  unfold fnekSigCallback at h
  simp only at h
  split at h
  · obtain ⟨-, rfl⟩ := Prod.mk.inj (Except.ok.inj h)
    rfl
  · split_ifs at h
    · obtain ⟨-, rfl⟩ := Prod.mk.inj (Except.ok.inj h)
      rfl
    · obtain ⟨-, rfl⟩ := Prod.mk.inj (Except.ok.inj h)
      exact signatures_pushed (isSignature_fnek _) _

theorem getEnableFilenameCrypto_signatures (h : getEnableFilenameCrypto n w = .ok (code, w')) :
    signatures w'.stack = signatures w.stack := by
  unfold getEnableFilenameCrypto at h
  simp only at h
  split_ifs at h
  · split at h
    · cases h
    · obtain ⟨-, rfl⟩ := Prod.mk.inj (Except.ok.inj h)
      rfl
    · obtain ⟨-, rfl⟩ := Prod.mk.inj (Except.ok.inj h)
      rfl
  · obtain ⟨-, rfl⟩ := Prod.mk.inj (Except.ok.inj h)
    rfl
  · obtain ⟨-, rfl⟩ := Prod.mk.inj (Except.ok.inj h)
    rfl

theorem tfCipher_signatures (plain : PlainSignatures w.stack) (h : tfCipher n w = .ok (code, w')) :
    signatures w'.stack = signatures w.stack := by
  unfold tfCipher at h
  simp only at h
  split at h
  · cases h
  · next scan scanned =>
    have same := scanKeyBytes_signatures plain scanned
    split_ifs at h
    · obtain ⟨-, rfl⟩ := Prod.mk.inj (Except.ok.inj h)
      exact same
    · split at h
      · cases h
      · obtain ⟨-, rfl⟩ := Prod.mk.inj (Except.ok.inj h)
        exact same
      · obtain ⟨-, rfl⟩ := Prod.mk.inj (Except.ok.inj h)
        exact (signatures_pushed (isSignature_cipher _) _).trans same

theorem anotherKeyCallback_signatures {nvps : List NameValPair}
    (h : anotherKeyCallback nvps n w = .ok (code, w')) : signatures w'.stack = signatures w.stack := by
  unfold anotherKeyCallback at h
  split at h
  · cases h
  · obtain ⟨-, rfl⟩ := Prod.mk.inj (Except.ok.inj h)
    rfl

/-- **The callbacks behind the keys push no signature.** -/
theorem mountCall_signatures {mods : List GraphModule} {f : Callback} {nvps : List NameValPair}
    (isGraph : f.IsGraph) (noSig : f ≠ .sig) (plain : PlainSignatures w.stack)
    (h : mountCall (moduleCalls mods) f n nvps w = .ok (code, w')) :
    signatures w'.stack = signatures w.stack := by
  cases f with
  | sig => exact absurd rfl noSig
  | hmac => exact stackPushIfYes_signatures rfl h
  | passthrough => exact stackPushIfYes_signatures rfl h
  | xattr => exact stackPushIfYes_signatures rfl h
  | encryptedPassthrough => exact stackPushIfYes_signatures rfl h
  | fnekSig => exact fnekSigCallback_signatures h
  | enableFilenameCrypto => exact getEnableFilenameCrypto_signatures h
  | keyBytes =>
    obtain ⟨-, rfl⟩ := Prod.mk.inj (Except.ok.inj h)
    exact signatures_pushed (isSignature_keyBytes _) _
  | cipher => exact tfCipher_signatures plain h
  | anotherKey => exact anotherKeyCallback_signatures h
  | mod m c => exact isGraph.elim

end Ecryptfs
