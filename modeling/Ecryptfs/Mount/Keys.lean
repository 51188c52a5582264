import Ecryptfs.Graph.Invariant
import Ecryptfs.Lib.Machine
import Ecryptfs.Mount.PassphraseModule

/-!
# Several keys

An option list may name several keys, and `anotherKey` leads back to the key selection as long as
there is an entry `key` that was not processed.  The selection, however, keeps the value it took from
the first entry, so that no further entry is ever taken (`keysLeft_reached`): an evaluation processes
the keys of its list exactly when there is only one of them.
-/

namespace Ecryptfs

open StateTransition

variable {mods : List GraphModule} {version : UInt32} {w w' : MountWorld} {n : NodeId}
  {nodes : NodeId → MountNode}

/-! ## The signatures behind the keys -/

/-- The nodes behind the keys. -/
def tailNodes : List NodeId :=
  [.cipher, .keyBytes, .versionSupport, .passthrough, .hmac, .xattr, .encryptedPassthrough, .fnekSig,
    .enableFilenameCrypto, .end_]

def tailCallbacks : List Callback :=
  [.cipher, .keyBytes, .passthrough, .hmac, .xattr, .encryptedPassthrough, .fnekSig,
    .enableFilenameCrypto]

/-- A node that only leads on behind the keys. -/
structure TailNode (node : MountNode) : Prop where
  next : ∀ tn ∈ node.tl, ∀ x, tn.nextToken = some x → x ∈ tailNodes
  func : ∀ tn ∈ node.tl, ∀ f, tn.transFunc = some f → f ∈ tailCallbacks

def TailPart (w : MountWorld) : Prop := ∀ n ∈ tailNodes, TailNode (w.nodes n)

theorem tail_isPart : IsPart tailNodes tailCallbacks :=
  ⟨by decide, by decide, by decide, fun m k => by simp [tailNodes], by decide,
    fun m c => by simp [tailCallbacks], by decide⟩

theorem tailNode_start (static : Static nodes) (inside : n ∈ tailNodes) :
    TailNode (fillInVersionSupport version nodes n) := by
  by_cases isCipher : n = .cipher
  · subst isCipher
    have transitions := static.cipher version
    refine ⟨fun tn among x leads => ?_, fun tn among f isFunc => ?_⟩
    · obtain rfl := Option.some.inj ((transitions tn among).1.symm.trans leads)
      decide
    · obtain rfl := Option.some.inj ((transitions tn among).2.symm.trans isFunc)
      decide
  · have links : LinksWithin tailNodes tailCallbacks (fillInVersionSupport version nodes n).tl :=
      tail_isPart.start static inside isCipher
    exact ⟨links.next, links.func⟩

/-- The invariant behind the keys: the evaluation stays there, and the signatures stay the same. -/
structure TailInv (sigs : List (Option CStr)) (w : MountWorld) : Prop where
  part : TailPart w
  sigs : signatures w.stack = sigs

theorem TailInv.of_tl {sigs : List (Option CStr)} (inv : TailInv sigs w)
    (tl : ∀ k, (w'.nodes k).tl = (w.nodes k).tl) (stack : w'.stack = w.stack) : TailInv sigs w' := by
  refine ⟨fun k inside => ?_, by rw [stack, inv.sigs]⟩
  have node := inv.part k inside
  constructor
  · rw [tl k]
    exact node.next
  · rw [tl k]
    exact node.func

theorem TailInv.alloc {sigs : List (Option CStr)} {s t : MountState} {rc : ℤ}
    (inv : TailInv sigs s.world) (h : allocAndGetVal n s = .ok (rc, t)) : TailInv sigs t.world := by
  obtain ⟨links, stack, -⟩ := allocAndGetVal_links h
  exact inv.of_tl (fun k => congrFun links k) stack

theorem TailInv.called {sigs : List (Option CStr)} {nvps : List NameValPair} (inside : n ∈ tailNodes)
    (plain : PlainSignatures w.stack) (inv : TailInv sigs w)
    (called : Called (mountCall (moduleCalls mods)) n nvps w w') : TailInv sigs w' := by
  obtain ⟨tn, among, f, isFunc, code, h⟩ := called
  have inTail := (inv.part n inside).func tn among f isFunc
  have isGraph := tail_isPart.isGraph inTail
  have noSig : f ≠ .sig := by
    rintro rfl
    exact tail_isPart.noKey.1 inTail
  have links := tail_isPart.called (fun k inside' => ⟨(inv.part k inside').next, (inv.part k inside').func⟩)
    inside inTail h
  refine ⟨fun k inside' => ⟨(links k inside').next, (links k inside').func⟩, ?_⟩
  rw [mountCall_signatures isGraph noSig plain h, inv.sigs]

/-- **Behind the keys no signature is pushed any more.** -/
theorem tail_signatures {sigs : List (Option CStr)} {s : MountState} {c : Config NodeId Callback MountExt}
    (plain : PlainSignatures s.world.stack) (inv : TailInv sigs s.world) (inside : n ∈ tailNodes)
    (reached : Reaches (evalStep (mountCall (moduleCalls mods))) (.at n s) c) :
    c.Holds fun t => signatures t.world.stack = sigs := by
  have plainOf : ∀ {w : MountWorld}, TailInv sigs w → PlainSignatures w.stack := by
    intro w inv'
    unfold PlainSignatures at plain ⊢
    rw [inv'.sigs, ← inv.sigs]
    exact plain
  have invariant : c.Holds (fun t => TailInv sigs t.world) ∧ ∀ m t, c = .at m t → m ∈ tailNodes := by
    refine Machine.invariant (I := fun c : Config NodeId Callback MountExt =>
      c.Holds (fun t => TailInv sigs t.world) ∧ ∀ m t, c = .at m t → m ∈ tailNodes) ?_ ?_ reached
    · rintro a b ⟨holds, there⟩ stepped
      cases a with
      | «at» m t =>
        have here := there m t rfl
        obtain ⟨holds', leads⟩ := evalStep_inv (I := fun w _ => TailInv sigs w)
          (fun rc u allocated => TailInv.alloc holds allocated)
          (fun w w' nvps inv' called => TailInv.called here (plainOf inv') inv' called) stepped
        refine ⟨holds', fun m' t' same => ?_⟩
        subst same
        rcases leads m' t' rfl m' rfl with rfl | ⟨tn, among, next_⟩
        · exact here
        · exact (holds'.part m here).next tn among m' next_
      | done rc last t => cases stepped
      | stopped why => cases stepped
    · refine ⟨inv, fun m t same => ?_⟩
      obtain ⟨rfl, -⟩ := Config.at.inj same
      exact inside
  cases c with
  | «at» m t => exact invariant.1.sigs
  | done rc last t => exact invariant.1.sigs
  | stopped why => trivial

/-! ## Further keys -/

/-- The part of the graph that the keys depend on: only `select` takes entries `key`, and neither the
graph nor the modules change it. -/
structure KeyPart (mods : List GraphModule) (w : MountWorld) : Prop where
  modules : ModuleNodes w
  selectNames : (w.nodes .select).mntOptNames = [lit "key"]
  selectExplicit : (w.nodes .select).flags.allowImplicitTransition = false
  selectTl : (w.nodes .select).tl = mods.map GraphModule.trans
  names : ∀ n, ¬ IsModule n → n ≠ .select → lit "key" ∉ (w.nodes n).mntOptNames
  explicit : ∀ n, ¬ IsModule n → n ≠ .select → (w.nodes n).flags.allowImplicitTransition = false
  func : ∀ n, ¬ IsModule n → n ≠ .select → ∀ tn ∈ (w.nodes n).tl, ∀ f, tn.transFunc = some f → f.IsGraph

/-- There is always an entry `key` left: the selection has its value and keeps it, or it can take one
entry of at least two. -/
def KeysLeft (w : MountWorld) (nvps : List NameValPair) : Prop :=
  ((w.nodes .select).val.isSome ∧ queue (lit "key") nvps ≠ []) ∨
    ((w.nodes .select).val = none ∧ 2 ≤ (queue (lit "key") nvps).length ∧
      ∀ value ∈ queue (lit "key") nvps, ∃ v, value = some v ∧ v ≠ nullText)

theorem KeysLeft.pending {nvps : List NameValPair} (left : KeysLeft w nvps) :
    queue (lit "key") nvps ≠ [] := by
  rcases left with ⟨-, pending⟩ | ⟨-, two, -⟩
  · exact pending
  · intro none_
    rw [none_] at two
    exact absurd two (by decide)

theorem staticNode_keyless {n : NodeId} (outside : ¬ IsModule n) (other : n ≠ .select) :
    lit "key" ∉ (staticNode n).mntOptNames ∧
      (staticNode n).flags.allowImplicitTransition = false ∧
      ∀ tn ∈ (staticNode n).tl, ∀ f, tn.transFunc = some f → f.IsGraph := by
  cases n with
  | select => exact absurd rfl other
  | mod m k => exact absurd ⟨m, k, rfl⟩ outside
  | cipher => exact ⟨by decide, rfl, fun tn none_ => by cases none_⟩
  | keyBytes => exact ⟨by decide, rfl, fun tn none_ => by cases none_⟩
  | end_ => exact ⟨by decide, rfl, fun tn none_ => by cases none_⟩
  | dummy => exact ⟨by decide, rfl, fun tn none_ => by cases none_⟩
  | versionSupport =>
    refine ⟨by decide, rfl, fun tn among f isFunc => ?_⟩
    rw [List.mem_singleton.mp among] at isFunc
    cases isFunc
  | _ =>
    refine ⟨by decide, rfl, fun tn among f isFunc => ?_⟩
    rw [List.mem_singleton.mp among] at isFunc
    obtain rfl := Option.some.inj isFunc
    trivial

theorem keyPart_start (confined : Confined mods) (start : w.nodes = mountNodes version mods) :
    KeyPart mods w := by
  have select := @mountNodes_select mods version confined.linked
  have static := static_exited confined.linked
  have same : ∀ n, ¬ IsModule n → n ≠ .select → exitedNodes mods n = staticNode n :=
    fun n outside other => static.same n other fun m k isModule => outside ⟨m, k, isModule⟩
  refine ⟨fun m k => ?_, ?_, ?_, ?_, fun n outside other => ?_, fun n outside other => ?_,
    fun n outside other tn among f isFunc => ?_⟩
  · rw [start, mountNodes_module]
    exact exitedNodes_module confined m k
  · rw [start, select]
    rfl
  · rw [start, select]
    rfl
  · rw [start, select]
  · obtain ⟨tl, suggested, fields⟩ := fillInVersionSupport_fields version (exitedNodes mods) n
    rw [start]
    change lit "key" ∉ (fillInVersionSupport version (exitedNodes mods) n).mntOptNames
    rw [fields, same n outside other]
    exact (staticNode_keyless outside other).1
  · obtain ⟨tl, suggested, fields⟩ := fillInVersionSupport_fields version (exitedNodes mods) n
    rw [start]
    change (fillInVersionSupport version (exitedNodes mods) n).flags.allowImplicitTransition = false
    rw [fields, same n outside other]
    exact (staticNode_keyless outside other).2.1
  · rw [start] at among
    change tn ∈ (fillInVersionSupport version (exitedNodes mods) n).tl at among
    by_cases isCipher : n = .cipher
    · subst isCipher
      obtain rfl := Option.some.inj ((static.cipher version tn among).2.symm.trans isFunc)
      trivial
    · obtain ⟨tn₀, among₀, func, -⟩ := fillInVersionSupport_tl isCipher among
      rw [same n outside other] at among₀
      exact (staticNode_keyless outside other).2.2 tn₀ among₀ f (func.symm.trans isFunc)

theorem KeyPart.setNode {node : MountNode} (part : KeyPart mods w)
    (names : node.mntOptNames = (w.nodes n).mntOptNames)
    (explicit : node.flags.allowImplicitTransition = (w.nodes n).flags.allowImplicitTransition)
    (tl : node.tl = (w.nodes n).tl) : KeyPart mods (w.setNode n node) := by
  have kept : ∀ {α : Type} (field : MountNode → α), field node = field (w.nodes n) →
      ∀ k, field ((w.setNode n node).nodes k) = field (w.nodes k) := by
    intro α field same k
    by_cases here : k = n
    · rw [here, World.nodes_setNode_self, same]
    · rw [World.nodes_setNode_of_ne _ _ here]
  have names' := kept ParamNode.mntOptNames names
  have explicit' := kept (fun node => node.flags.allowImplicitTransition) explicit
  have tl' := kept ParamNode.tl tl
  refine ⟨fun m k => ⟨?_, ?_, ?_⟩, ?_, ?_, ?_, fun x outside other => ?_, fun x outside other => ?_,
    fun x outside other => ?_⟩
  · rw [names']
    exact (part.modules m k).names
  · rw [tl']
    exact (part.modules m k).next
  · rw [tl']
    exact (part.modules m k).func
  · rw [names', part.selectNames]
  · rw [explicit', part.selectExplicit]
  · rw [tl', part.selectTl]
  · rw [names']
    exact part.names x outside other
  · rw [explicit']
    exact part.explicit x outside other
  · rw [tl']
    exact part.func x outside other

/-- The invariant of the keys. -/
def KeyInv (mods : List GraphModule) (w : MountWorld) (nvps : List NameValPair) : Prop :=
  KeyPart mods w ∧ KeysLeft w nvps

theorem KeyInv.setNode {nvps nvps' : List NameValPair} {node : MountNode} (inv : KeyInv mods w nvps)
    (other : n ≠ .select) (names : node.mntOptNames = (w.nodes n).mntOptNames)
    (explicit : node.flags.allowImplicitTransition = (w.nodes n).flags.allowImplicitTransition)
    (tl : node.tl = (w.nodes n).tl) (keys : queue (lit "key") nvps' = queue (lit "key") nvps) :
    KeyInv mods (w.setNode n node) nvps' := by
  refine ⟨inv.1.setNode names explicit tl, ?_⟩
  unfold KeysLeft
  rw [World.nodes_setNode_of_ne _ _ other.symm, keys]
  exact inv.2

theorem KeyInv.retrieve {s : MountState} (inv : KeyInv mods s.world s.nvps) (other : n ≠ .select) :
    KeyInv mods (retrieve n s).world (retrieve n s).nvps := by
  have keyless : lit "key" ∉ (s.node n).mntOptNames := by
    by_cases isModule : IsModule n
    · obtain ⟨m, k, rfl⟩ := isModule
      exact fun named => (inv.1.modules m k).names _ named (by simp [reservedNames])
    · exact inv.1.names n isModule other
  obtain ⟨v, set, fields⟩ := (retrieveVal_spec (s.node n) s.nvps).fields
  refine inv.setNode other ?_ ?_ ?_ (queue_retrieveVal keyless)
  · rw [fields]
    rfl
  · rw [fields]
    rfl
  · rw [fields]
    rfl

/-- The selection takes one key of at least two, and none once it has its value. -/
theorem KeyInv.allocSelect {s t : MountState} {rc : ℤ} (inv : KeyInv mods s.world s.nvps)
    (h : allocAndGetVal .select s = .ok (rc, t)) : KeyInv mods t.world t.nvps := by
  rw [allocAndGetVal] at h
  rcases inv.2 with ⟨given, -⟩ | ⟨open_, two, real⟩
  · have given' : (s.node .select).val.isSome := given
    rw [if_pos given'] at h
    obtain ⟨-, rfl⟩ := Prod.mk.inj (Except.ok.inj h)
    exact inv
  · cases first : queue (lit "key") s.nvps with
    | nil => exact absurd first inv.2.pending
    | cons value rest =>
      rw [first] at two real
      obtain ⟨v, rfl, noNull⟩ := real value List.mem_cons_self
      have offers : Offers (s.nvps.map NameValPair.name) (fun x => queue x s.nvps) s.nvps :=
        ⟨rfl, fun _ => rfl⟩
      obtain ⟨nvps', retrieved, offers'⟩ := retrieveVal_entry [] offers inv.1.selectNames
        (fun x none_ => by cases none_) first
      rw [receive_real noNull] at retrieved
      have explicit : (s.node .select).flags.allowImplicitTransition = false := inv.1.selectExplicit
      have open' : (s.node .select).val = none := open_
      have retrieved' : retrieveVal (s.node .select) s.nvps =
        (true, { s.node .select with val := some v }, nvps') := retrieved
      simp only [open', retrieved', explicit, Option.isSome_none, Bool.false_eq_true, if_false, false_and,
        not_false_eq_true, and_self, if_true] at h
      obtain ⟨-, rfl⟩ := Prod.mk.inj (Except.ok.inj h)
      have node := s.world.nodes_setNode_self .select { s.world.nodes .select with val := some v }
      have keys : queue (lit "key") nvps' = rest := by
        rw [offers'.queues, Function.update_self]
      refine ⟨inv.1.setNode rfl rfl rfl, .inl ⟨?_, ?_⟩⟩
      · exact congrArg (fun node : MountNode => node.val.isSome) node
      · change queue (lit "key") nvps' ≠ []
        rw [keys]
        rintro rfl
        simp at two

theorem KeyPart.implicit {x : NodeId} (part : KeyPart mods w)
    (implicit : (w.nodes n).flags.allowImplicitTransition = true)
    (leads : ∃ tn ∈ (w.nodes n).tl, tn.nextToken = some x) : x = .anotherKey ∨ IsModule x := by
  have isModule : IsModule n := by
    by_contra outside
    by_cases isSelect : n = .select
    · rw [isSelect, part.selectExplicit] at implicit
      cases implicit
    · rw [part.explicit n outside isSelect] at implicit
      cases implicit
  obtain ⟨m, k, rfl⟩ := isModule
  obtain ⟨tn, among, next_⟩ := leads
  exact (part.modules m k).next tn among x next_

theorem KeyInv.alloc {s t : MountState} {rc : ℤ} (inv : KeyInv mods s.world s.nvps)
    (h : allocAndGetVal n s = .ok (rc, t)) : KeyInv mods t.world t.nvps := by
  by_cases isSelect : n = .select
  · subst isSelect
    exact inv.allocSelect h
  · refine allocAndGetVal_inv (P := fun u => KeyInv mods u.world u.nvps) ⟨fun u v inv => ?_, fun u _ inv => inv⟩
      inv (fun _ => inv.retrieve isSelect) (fun implicit u m inv' leads => ?_) h
    · exact inv.setNode isSelect rfl rfl rfl rfl
    · apply inv'.retrieve
      rcases inv.1.implicit implicit leads with rfl | ⟨i, k, rfl⟩
      · decide
      · simp

theorem KeyPart.keepsGraph (part : KeyPart mods w) (modules : ModuleNodes w')
    (keeps : KeepsGraph w w') : KeyPart mods w' := by
  have select : w'.nodes .select = w.nodes .select := keeps .select (by rintro ⟨m, k, same⟩; cases same)
  refine ⟨modules, ?_, ?_, ?_, fun x outside other => ?_, fun x outside other => ?_,
    fun x outside other => ?_⟩
  · rw [select, part.selectNames]
  · rw [select, part.selectExplicit]
  · rw [select, part.selectTl]
  · rw [keeps x outside]
    exact part.names x outside other
  · rw [keeps x outside]
    exact part.explicit x outside other
  · rw [keeps x outside]
    exact part.func x outside other

theorem KeyPart.rewired {T : Option NodeId → Prop} (part : KeyPart mods w) (outside : ¬ IsModule n)
    (other : n ≠ .select) (rewired : Rewired (graphTouches n) T w w') :
    KeyPart mods w' ∧ w'.nodes .select = w.nodes .select := by
  have select : w'.nodes .select = w.nodes .select := by
    apply rewired.other
    rintro (same | among)
    · exact other same.symm
    · exact absurd among (by decide)
  have modules : ∀ m k, w'.nodes (.mod m k) = w.nodes (.mod m k) := by
    intro m k
    apply rewired.other
    rintro (same | among)
    · exact outside ⟨m, k, same.symm⟩
    · simp at among
  refine ⟨⟨fun m k => ?_, ?_, ?_, ?_, fun x outside other => ?_, fun x outside other => ?_,
    fun x outside other tn among f isFunc => ?_⟩, select⟩
  · rw [modules]
    exact part.modules m k
  · rw [select, part.selectNames]
  · rw [select, part.selectExplicit]
  · rw [select, part.selectTl]
  · rw [rewired.names]
    exact part.names x outside other
  · rw [← Bool.not_eq_true]
    intro implicit
    have implicit' := rewired.implicit x implicit
    rw [part.explicit x outside other] at implicit'
    cases implicit'
  · rcases rewired.func x tn among with ⟨tn₀, among₀, same⟩ | ⟨-, isKeyBytes⟩
    · exact part.func x outside other tn₀ among₀ f (same.symm.trans isFunc)
    · obtain rfl := Option.some.inj (isKeyBytes.symm.trans isFunc)
      trivial

/-- A callback belongs to the modules and is called at one of their nodes or at the selection, or it
belongs to the graph. -/
theorem KeyPart.called_cases {nvps : List NameValPair} (confined : Confined mods)
    (part : KeyPart mods w) (called : Called (mountCall (moduleCalls mods)) n nvps w w') :
    (ModuleNodes w' ∧ KeepsGraph w w') ∨ ¬ IsModule n ∧ n ≠ .select ∧ ∃ tn ∈ (w.nodes n).tl,
      ∃ f code, tn.transFunc = some f ∧ f.IsGraph ∧
        mountCall (moduleCalls mods) f n nvps w = .ok (code, w') := by
  obtain ⟨tn, among, f, isFunc, code, h⟩ := called
  by_cases isModule : IsModule n
  · obtain ⟨m, k, rfl⟩ := isModule
    obtain ⟨m', c, rfl⟩ := (part.modules m k).func tn among f isFunc
    exact .inl (confined.calls m' c _ nvps w code w' ⟨m, k, rfl⟩ h part.modules)
  · by_cases isSelect : n = .select
    · subst isSelect
      rw [part.selectTl] at among
      obtain ⟨g, registered, rfl⟩ := List.mem_map.mp among
      obtain ⟨-, -, funcs⟩ := confined.enter g registered
      obtain ⟨m, c, rfl⟩ := funcs f isFunc
      exact .inl (confined.entries g registered m c isFunc nvps w code w' h part.modules)
    · exact .inr ⟨isModule, isSelect, tn, among, f, code, isFunc,
        part.func n isModule isSelect tn among f isFunc, h⟩

theorem KeysLeft.same {nvps : List NameValPair} (left : KeysLeft w nvps)
    (kept : w'.nodes .select = w.nodes .select) : KeysLeft w' nvps := by
  unfold KeysLeft
  rw [kept]
  exact left

theorem KeyInv.called {nvps : List NameValPair} (confined : Confined mods) (inv : KeyInv mods w nvps)
    (called : Called (mountCall (moduleCalls mods)) n nvps w w') : KeyInv mods w' nvps := by
  obtain ⟨modules, keeps⟩ | ⟨outside, other, tn, among, f, code, -, isGraph, h⟩ :=
    inv.1.called_cases confined called
  · exact ⟨inv.1.keepsGraph modules keeps,
      inv.2.same (keeps .select (by rintro ⟨m, k, same⟩; cases same))⟩
  · obtain ⟨part, select⟩ := inv.1.rewired outside other (mountCall_rewired isGraph h)
    exact ⟨part, inv.2.same select⟩

/-- **A list with two keys never runs out of keys.** -/
theorem keysLeft_reached (confined : Confined mods) {s : MountState} (inv : KeyInv mods s.world s.nvps)
    {c : Config NodeId Callback MountExt}
    (reached : Reaches (evalStep (mountCall (moduleCalls mods))) (.at n s) c) :
    c.Holds fun t => KeyInv mods t.world t.nvps := by
  refine Machine.invariant (I := Config.Holds fun t => KeyInv mods t.world t.nvps) (a := .at n s) ?_ inv reached
  intro a b holds stepped
  cases a with
  | «at» m t =>
    exact (evalStep_inv (fun rc u allocated => holds.alloc allocated)
      (fun w w' nvps inv' called => inv'.called confined called) stepped).1
  | done rc last t => cases stepped
  | stopped why => cases stepped

/-! ## The keys of a list -/

variable {keys : List KeySpec} {k : KeySpec} {nvps : List NameValPair}
  {inputs : List (Except {rc : ℤ // rc < 0} CStr)}

/-- An option list with the given keys: the selection and the modules find what the keys consist of,
and no option leads around them. -/
structure KeyList (mods : List GraphModule) (keys : List KeySpec) (nvps : List NameValPair) : Prop where
  fresh : ∀ e ∈ nvps, e.processed = false
  queues : ∀ x, x = lit "key" ∨ Attribute mods x →
    queue x nvps = queue x (keys.flatMap KeySpec.entries)
  noSig : queue (lit "sig") nvps = []
  noAnother : queue (lit "another_key") nvps = []
  noLabels : NoLabels mods (nvps.map NameValPair.name)

/-- A key that names a registered module and carries every attribute that the module needs. -/
structure CompleteKey (version : UInt32) (mods : List GraphModule) (k : KeySpec) : Prop where
  completes : ∃ g, Registered mods k g ∧ Completes version mods k g
  attributes : ∀ a ∈ k.attributes, Attribute mods a.1
  sig : ∀ c ∈ k.sig, c ∈ hexDigits

/-- The evaluation comes to the cipher when all keys of the list are processed, and from there on the
stack holds the signatures of the keys, one for each key in their order. -/
def ProcessesKeys (version : UInt32) (mods : List GraphModule) (keys : List KeySpec)
    (nvps : List NameValPair) (inputs : List (Except {rc : ℤ // rc < 0} CStr)) : Prop :=
  ∃ s, Reaches (evalStep (mountCall (moduleCalls mods)))
      (evalStart .root (mountState version mods nvps inputs)) (.at .cipher s) ∧
    queue (lit "key") s.nvps = [] ∧
    ∀ c, Reaches (evalStep (mountCall (moduleCalls mods))) (.at .cipher s) c → c.Holds fun t =>
      signatures t.world.stack = (keys.map fun k => param "ecryptfs_sig=" k.sig).reverse

theorem attribute_notReserved (confined : Confined mods) {x : CStr} (isAttribute : Attribute mods x) :
    x ∉ reservedNames := by
  obtain ⟨m, k, named⟩ := isAttribute
  exact (startNodes_module confined m k).names x named

theorem queue_keys (confined : Confined mods) (complete : ∀ k ∈ keys, CompleteKey version mods k) :
    queue (lit "key") (keys.flatMap KeySpec.entries) = keys.map fun k => some k.modAlias := by
  induction keys with
  | nil => rfl
  | cons k keys ih =>
    have attributes : queue (lit "key") (k.attributes.map fun a => ⟨a.1, a.2, false⟩) = [] := by
      rw [queue_eq_nil]
      rintro ⟨e, among, isKey, -⟩
      obtain ⟨a, given, rfl⟩ := List.mem_map.mp among
      have isAttribute := (complete k List.mem_cons_self).attributes a given
      have same : a.1 = lit "key" := isKey
      rw [same] at isAttribute
      exact attribute_notReserved confined isAttribute (by decide)
    rw [List.flatMap_cons, queue_append, ih fun k among => complete k (List.mem_cons_of_mem _ among),
      KeySpec.entries, queue_cons, if_pos ⟨rfl, rfl⟩, attributes]
    rfl

theorem evalStart_quiet (quiet : getVerbosity nvps = .ok 0) :
    evalStart .root (mountState version mods nvps inputs) =
      .at .root (mountState version mods nvps inputs) := by
  unfold evalStart mountState
  dsimp only
  rw [quiet]

theorem selected_other {x : NodeId} (noRoot : x ≠ .root) (noSelect : x ≠ .select) :
    (selected k w).nodes x = w.nodes x :=
  (World.nodes_setNode_of_ne _ _ noSelect).trans (setFirstNext_other noRoot)

theorem selected_select : ((selected k w).nodes .select).val = some k.modAlias :=
  congrArg ParamNode.val (World.nodes_setNode_self _ _ _)

theorem KeyList.given (confined : Confined mods) (list : KeyList mods [k] nvps) :
    KeyGiven mods k (nvps.map NameValPair.name)
      (Function.update (fun x => queue x nvps) (lit "key") []) := by
  have same : ∀ x, Attribute mods x → queue x nvps = queue x k.entries := by
    intro x isAttribute
    rw [list.queues x (.inr isAttribute), List.flatMap_singleton]
  refine ⟨fun x isAttribute => ?_, fun x named isAttribute => ?_, list.noLabels.1⟩
  · have other : x ≠ lit "key" := by
      rintro rfl
      exact attribute_notReserved confined isAttribute (by decide)
    rw [Function.update_of_ne other]
    exact same x isAttribute
  · obtain ⟨e, among, isName⟩ := List.mem_map.mp named
    have pending : queue x k.entries ≠ [] := by
      rw [← same x isAttribute]
      intro none_
      exact queue_eq_nil.mp none_ ⟨e, among, isName, list.fresh e among⟩
    by_contra absent
    apply pending
    rw [queue_eq_nil]
    rintro ⟨e', among', isName', -⟩
    exact absent (List.mem_map.mpr ⟨e', among', isName'⟩)

theorem plainSignature {sig : CStr} (digits : ∀ c ∈ sig, c ∈ hexDigits) (name : CStr) :
    strstr (lit "ecryptfs_sig=" ++ sig) (109 :: name) = false := by
  apply strstr_of_notMem
  rw [List.mem_append, not_or]
  refine ⟨by decide, fun among => ?_⟩
  exact absurd (digits _ among) (by decide)

/-- A list with one key is processed. -/
theorem processes_single (confined : Confined mods) (quiet : getVerbosity nvps = .ok 0)
    (list : KeyList mods [k] nvps) (complete : CompleteKey version mods k) :
    ProcessesKeys version mods [k] nvps inputs := by
  obtain ⟨g, registered, completes⟩ := complete.completes
  have outside : ∀ x ∈ tailNodes, ¬ IsModule x ∧ x ≠ .root ∧ x ≠ .select ∧ x ≠ .anotherKey := by
    rintro x inside
    refine ⟨?_, ?_, ?_, ?_⟩
    · rintro ⟨m, j, rfl⟩
      simp [tailNodes] at inside
    · rintro rfl
      exact absurd inside (by decide)
    · rintro rfl
      exact absurd inside (by decide)
    · rintro rfl
      exact absurd inside (by decide)
  have static : ∀ x, x ∉ versioned → x ≠ .select → (∀ m j, x ≠ .mod m j) →
      mountNodes version mods x = staticNode x := fun x => mountNodes_static confined.linked
  have keyQueue : queue (lit "key") nvps = [some k.modAlias] := by
    rw [list.queues _ (.inl rfl), queue_keys confined (List.forall_mem_singleton.mpr complete)]
    rfl
  obtain ⟨entry, w₁, w', q', leads, called, kept₁, walks, kept, others, sigs⟩ := completes
    (nvps.map NameValPair.name) _ (selected k ⟨mountNodes version mods, [none], {}⟩)
    (list.given confined) (fun m j => selected_other (by simp) (by simp)) selected_select
  have notModule : ∀ x, (∀ m j, x ≠ .mod m j) → ¬ IsModule x := by
    rintro x other ⟨m, j, same⟩
    exact other m j same
  have anotherKey : w'.nodes .anotherKey = staticNode .anotherKey := by
    rw [kept .anotherKey (notModule _ (by simp)), selected_other (by decide) (by decide)]
    exact static .anotherKey (by decide) (by decide) (by simp)
  have reserved : ∀ x ∈ reservedNames, q' x = Function.update (fun x => queue x nvps) (lit "key") [] x :=
    fun x among => others x fun isAttribute => attribute_notReserved confined isAttribute among
  have noAnother : q' (lit "another_key") = [] := by
    rw [reserved _ (by decide), Function.update_of_ne (by simp)]
    exact list.noAnother
  have noKey : q' (lit "key") = [] := by
    rw [reserved _ (by decide), Function.update_self]
  have enter := enter_walks confined registered (static .root (by decide) (by decide) (by simp))
    (mountNodes_select confined.linked) list.noLabels list.noSig keyQueue leads called
    (kept₁ .select (notModule _ (by simp)))
  have leave := @leave_walks mods _ _ _ anotherKey list.noLabels.1 noAnother noKey
  obtain ⟨nvps', runs, offers⟩ := (enter.trans (walks.trans leave)) nvps ⟨rfl, fun _ => rfl⟩
  obtain ⟨s, reached, standing⟩ := runs (mountState version mods nvps inputs) ⟨rfl, rfl, rfl⟩
  have sigs' : signatures s.world.stack = [param "ecryptfs_sig=" k.sig] := by
    rw [standing.world]
    exact sigs
  refine ⟨s, ?_, ?_, fun c reached' => ?_⟩
  · rw [evalStart_quiet quiet]
    exact reached
  · rw [standing.nvps, offers.queues, noKey]
  · refine tail_signatures ?_ ⟨fun x inside => ?_, sigs'⟩ (by decide) reached'
    · unfold PlainSignatures
      rw [sigs', List.forall_mem_singleton]
      exact ⟨plainSignature complete.sig _, plainSignature complete.sig _⟩
    · obtain ⟨noModule, noRoot, noSelect, noAnother⟩ := outside x inside
      have same : s.world.nodes x = mountNodes version mods x := by
        rw [standing.world, setFirstNext_other noAnother, kept x noModule]
        exact selected_other noRoot noSelect
      rw [same]
      exact tailNode_start (static_exited confined.linked) inside

/-- A list with two keys is not processed. -/
theorem not_processes_two (confined : Confined mods) (quiet : getVerbosity nvps = .ok 0)
    (list : KeyList mods keys nvps) (complete : ∀ k ∈ keys, CompleteKey version mods k)
    (two : 2 ≤ keys.length) : ¬ ProcessesKeys version mods keys nvps inputs := by
  rintro ⟨s, reached, noKey, -⟩
  have keyQueue : queue (lit "key") nvps = keys.map fun k => some k.modAlias := by
    rw [list.queues _ (.inl rfl), queue_keys confined complete]
  have start : KeyInv mods (mountState version mods nvps inputs).world
      (mountState version mods nvps inputs).nvps := by
    refine ⟨keyPart_start confined rfl, .inr ⟨?_, ?_, ?_⟩⟩
    · change (mountNodes version mods .select).val = none
      rw [mountNodes_select confined.linked]
      rfl
    · change 2 ≤ (queue (lit "key") nvps).length
      rw [keyQueue, List.length_map]
      exact two
    · change ∀ value ∈ queue (lit "key") nvps, _
      rw [keyQueue]
      intro value among
      obtain ⟨k, given, rfl⟩ := List.mem_map.mp among
      obtain ⟨g, registered, -⟩ := (complete k given).completes
      exact ⟨_, rfl, registered.real⟩
  rw [evalStart_quiet quiet] at reached
  exact (keysLeft_reached confined start reached).2.pending noKey

/-- **The keys of a list are processed exactly when there is only one of them.**  The selection is
never cleared, so that with a second key there always is one that was not processed. -/
theorem processesKeys_iff (confined : Confined mods) (some_ : keys ≠ [])
    (quiet : getVerbosity nvps = .ok 0) (list : KeyList mods keys nvps)
    (complete : ∀ k ∈ keys, CompleteKey version mods k) :
    ProcessesKeys version mods keys nvps inputs ↔ keys.length = 1 := by
  constructor
  · intro processes
    by_contra other
    have two : 2 ≤ keys.length := by
      have := List.length_pos_of_ne_nil some_
      omega
    exact not_processes_two confined quiet list complete two processes
  · intro single
    obtain ⟨k, rfl⟩ := List.length_eq_one_iff.mp single
    exact processes_single confined quiet list (complete k List.mem_cons_self)

/-! ## Lists of passphrases -/

theorem completeKey_passphrase (version : UInt32) {P : CStr} (fits : P.length ≤ maxPassphraseBytes)
    (real : P ≠ nullText) (noLabel : P ≠ lit "passphrase_salt" ∧ P ≠ lit "default") :
    CompleteKey version [passphraseModule plainEnv 0] (passphraseKey plainEnv P) := by
  obtain ⟨s, generated⟩ :=
    generatePassphraseSig_ok plainEnv.nss (fun _ => rfl) (defaultSalt plainEnv) fits
  have key : addPassphraseKey plainEnv P (defaultSalt plainEnv) = (0, s.sig) := by
    unfold addPassphraseKey
    rw [generated]
    rfl
  have real' : lit "passphrase" ≠ nullText := by decide
  refine ⟨⟨passphraseModule plainEnv 0, ⟨rfl, rfl, fun i low => absurd low (Nat.not_lt_zero i),
    real', by decide⟩, completes_passphrase version real noLabel (by rw [key])⟩, ?_, ?_⟩
  · intro a among
    rw [List.mem_singleton.mp among, attribute_passphrase]
    exact List.mem_map_of_mem (by decide)
  · obtain ⟨last, isSig⟩ := generatePassphraseSig_toHex plainEnv.nss generated
    have sig : (passphraseKey plainEnv P).sig = s.sig := congrArg Prod.snd key
    rw [sig, isSig]
    exact toHex_hexDigits _

/-- The options of a mount with the given keys. -/
def keyOptions (keys : List KeySpec) : List NameValPair :=
  ⟨lit "verbosity", some (lit "0"), false⟩ :: keys.flatMap KeySpec.entries ++
    [⟨lit "ecryptfs_cipher", some (lit "aes"), false⟩,
      ⟨lit "ecryptfs_key_bytes", some (lit "16"), false⟩]

/-- One passphrase. -/
def oneKey : List KeySpec := [passphraseKey plainEnv "secret"]

/-- Two passphrases. -/
def twoKeys : List KeySpec := [passphraseKey plainEnv "secret", passphraseKey plainEnv "other"]

theorem completeKeys (version : UInt32) :
    ∀ k ∈ twoKeys, CompleteKey version [passphraseModule plainEnv 0] k := by
  intro k among
  rcases List.mem_cons.mp among with rfl | among
  · exact completeKey_passphrase version (by decide) (by decide) (by decide)
  · rw [List.mem_singleton.mp among]
    exact completeKey_passphrase version (by decide) (by decide) (by decide)

theorem keyList_of_names {keys : List KeySpec}
    (queues : ∀ x ∈ "key" :: passphraseOptions, queue (lit x) (keyOptions keys) =
      queue (lit x) (keys.flatMap KeySpec.entries))
    (fresh : ∀ e ∈ keyOptions keys, e.processed = false)
    (absent : ∀ x ∈ ["sig", "another_key", "default", "passphrase"],
      lit x ∉ (keyOptions keys).map NameValPair.name) :
    KeyList [passphraseModule plainEnv 0] keys (keyOptions keys) := by
  have empty : ∀ x ∈ ["sig", "another_key", "default", "passphrase"],
      queue (lit x) (keyOptions keys) = [] := by
    intro x among
    rw [queue_eq_nil]
    rintro ⟨e, inside, isName, -⟩
    exact absent x among (List.mem_map.mpr ⟨e, inside, isName⟩)
  refine ⟨fresh, fun x named => ?_, empty _ (by simp), empty _ (by simp), absent _ (by simp), ?_⟩
  · rw [attribute_passphrase] at named
    rcases named with rfl | named
    · exact queues _ List.mem_cons_self
    · obtain ⟨name, among, rfl⟩ := List.mem_map.mp named
      exact queues name (List.mem_cons_of_mem _ among)
  · intro g registered l isLabel
    rw [List.mem_singleton.mp registered] at isLabel
    rw [← Option.some.inj isLabel]
    exact absent _ (by simp)

theorem keyList_one : KeyList [passphraseModule plainEnv 0] oneKey (keyOptions oneKey) :=
  keyList_of_names (by decide) (by decide) (by decide)

theorem keyList_two : KeyList [passphraseModule plainEnv 0] twoKeys (keyOptions twoKeys) :=
  keyList_of_names (by decide) (by decide) (by decide)

/-- A mount with one passphrase. -/
theorem processesKeys_one :
    ProcessesKeys 0x1 [passphraseModule plainEnv 0] oneKey (keyOptions oneKey) [] :=
  (processesKeys_iff (confined_passphrase plainEnv) (by simp [oneKey]) rfl keyList_one
    fun k among => completeKeys 0x1 k (List.mem_cons.mpr (.inl (List.mem_singleton.mp among)))).mpr rfl

/-- A mount with two passphrases: the second key is not processed. -/
theorem second_key_left : Confined [passphraseModule plainEnv 0] ∧
    getVerbosity (keyOptions twoKeys) = .ok 0 ∧
    KeyList [passphraseModule plainEnv 0] twoKeys (keyOptions twoKeys) ∧
    (∀ k ∈ twoKeys, CompleteKey 0x1 [passphraseModule plainEnv 0] k) ∧
    ¬ ProcessesKeys 0x1 [passphraseModule plainEnv 0] twoKeys (keyOptions twoKeys) [] :=
  ⟨confined_passphrase plainEnv, rfl, keyList_two, completeKeys 0x1,
    not_processes_two (confined_passphrase plainEnv) rfl keyList_two (completeKeys 0x1) (by decide)⟩

end Ecryptfs
