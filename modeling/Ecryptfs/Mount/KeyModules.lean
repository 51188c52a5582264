import Ecryptfs.Mount.Rewiring
import Ecryptfs.Mount.Tail

/-!
# Key modules in an evaluation

What the mount graph expects of the registered key modules: their callbacks work on their own nodes
(`Confined`), and a module that is entered with the attributes it needs leaves by `anotherKey` with
the signature of the key on the stack (`Completes`).  The turns into a module and out of it are
computed here for every such module.
-/

namespace Ecryptfs

open Memory

/-- A node of a key module. -/
def IsModule (n : NodeId) : Prop := ∃ m k, n = .mod m k

/-- The option names of the nodes of the key modules. -/
def Attribute (mods : List GraphModule) (name : CStr) : Prop :=
  ∃ m k, name ∈ (startNodes mods (.mod m k)).mntOptNames

/-- The option names of the graph itself that a key module must not use. -/
def reservedNames : List CStr := ["key", "another_key"]

/-- What a node of a key module may look like: it takes no entry of the key selection, it leads to
other nodes of modules or out of the subgraph, and its functions belong to modules. -/
structure ModuleNode (node : MountNode) : Prop where
  names : ∀ x ∈ node.mntOptNames, x ∉ reservedNames
  next : ∀ tn ∈ node.tl, ∀ x, tn.nextToken = some x → x = .anotherKey ∨ IsModule x
  func : ∀ tn ∈ node.tl, ∀ f, tn.transFunc = some f → ∃ m c, f = .mod m c

def ModuleNodes (w : MountWorld) : Prop := ∀ m k, ModuleNode (w.nodes (.mod m k))

/-- Callbacks leave the nodes alone that do not belong to modules. -/
def KeepsGraph (w w' : MountWorld) : Prop := ∀ n, ¬ IsModule n → w'.nodes n = w.nodes n

/-- The key modules work on their own nodes. -/
structure Confined (mods : List GraphModule) : Prop where
  enter : ∀ g ∈ mods, (∃ l, g.trans.val = some l) ∧ (∃ x, g.trans.nextToken = some x ∧ IsModule x) ∧
    ∀ f, g.trans.transFunc = some f → ∃ m c, f = .mod m c
  nodes : ∀ g ∈ mods, ∀ k, ModuleNode (g.nodes k)
  calls : ∀ m c n nvps w code w', IsModule n → moduleCalls mods m c n nvps w = .ok (code, w') →
    ModuleNodes w → ModuleNodes w' ∧ KeepsGraph w w'
  entries : ∀ g ∈ mods, ∀ m c, g.trans.transFunc = some (.mod m c) → ∀ nvps w code w',
    moduleCalls mods m c .select nvps w = .ok (code, w') →
    ModuleNodes w → ModuleNodes w' ∧ KeepsGraph w w'

variable {mods : List GraphModule} {version : UInt32}

/-- The transitions of a node of a key module, without regard to what it takes from the list. -/
structure ModuleLinks (tl : List (TransitionNode NodeId Callback)) : Prop where
  next : ∀ tn ∈ tl, ∀ x, tn.nextToken = some x → x = .anotherKey ∨ IsModule x
  func : ∀ tn ∈ tl, ∀ f, tn.transFunc = some f → ∃ m c, f = .mod m c

/-- The key modules have transitions into their nodes, and these only lead to each other or out of the
subgraph. -/
structure LinkedModules (mods : List GraphModule) : Prop where
  enter : ∀ g ∈ mods, (∃ x, g.trans.nextToken = some x ∧ IsModule x) ∧
    ∀ f, g.trans.transFunc = some f → ∃ m c, f = .mod m c
  nodes : ∀ g ∈ mods, ∀ k, ModuleLinks (g.nodes k).tl

theorem ModuleNode.links {node : MountNode} (module : ModuleNode node) : ModuleLinks node.tl :=
  ⟨module.next, module.func⟩

theorem Confined.linked (confined : Confined mods) : LinkedModules mods :=
  ⟨fun g registered => (confined.enter g registered).2,
    fun g registered k => (confined.nodes g registered k).links⟩

/-- A node leads to nodes of its own module or out of the subgraph. -/
theorem ModuleLinks.own {m : ℕ} {tl : List (TransitionNode NodeId Callback)}
    (own : ∀ tn ∈ tl, (tn.nextToken = none ∨ ∃ k, tn.nextToken = some (.mod m k)) ∧
      (tn.transFunc = none ∨ ∃ c, tn.transFunc = some (.mod m c))) : ModuleLinks tl := by
  refine ⟨fun tn among x leads => ?_, fun tn among f isFunc => ?_⟩
  · rcases (own tn among).1 with none_ | ⟨k, next_⟩
    · cases none_.symm.trans leads
    · exact .inr ⟨m, k, Option.some.inj (leads.symm.trans next_)⟩
  · rcases (own tn among).2 with none_ | ⟨c, func⟩
    · cases none_.symm.trans isFunc
    · exact ⟨m, c, Option.some.inj (isFunc.symm.trans func)⟩

theorem passphraseNode_links (m k : ℕ) : ModuleLinks (passphraseNode m k).tl := by
  apply ModuleLinks.own (m := m)
  rcases k with _ | _ | _ | _ | _ | k <;> simp [passphraseNode]

theorem linearModule_links (env : MountEnv) (aliases : List CStr) (m : ℕ) (modAlias : CStr)
    (params : List KeyModParam) (k : ℕ) :
    ModuleLinks ((linearModule env aliases m modAlias params).nodes k).tl := by
  apply ModuleLinks.own (m := m)
  unfold linearModule
  dsimp only
  split
  · simp
  · split_ifs <;> simp

/-! ## The graph -/

/-- The nodes before the features are filled in. -/
def exitedNodes (mods : List GraphModule) : NodeId → MountNode :=
  setExit .anotherKey graphDepth .select (startNodes mods)

/-- The nodes that the recursion for the exits can reach. -/
def keyPart (n : NodeId) : Prop := n = .select ∨ n = .anotherKey ∨ n = .cipher ∨ IsModule n

theorem startNodes_module (confined : Confined mods) (m k : ℕ) :
    ModuleNode (startNodes mods (.mod m k)) := by
  unfold startNodes
  dsimp only
  split
  · next g found => exact confined.nodes g (List.mem_of_getElem? found) k
  · exact ⟨fun x none_ => (by cases none_), fun tn none_ => (by cases none_),
      fun tn none_ => (by cases none_)⟩

theorem startNodes_links (linked : LinkedModules mods) (m k : ℕ) :
    ModuleLinks (startNodes mods (.mod m k)).tl := by
  unfold startNodes
  dsimp only
  split
  · next g found => exact linked.nodes g (List.mem_of_getElem? found) k
  · exact ⟨fun tn none_ => (by cases none_), fun tn none_ => (by cases none_)⟩

theorem startNodes_inside (linked : LinkedModules mods) : Inside (startNodes mods) keyPart := by
  intro n inside tn among m leads
  rcases inside with rfl | rfl | rfl | ⟨i, k, rfl⟩
  · obtain ⟨g, registered, rfl⟩ := List.mem_map.mp among
    obtain ⟨⟨x, next_, isModule⟩, -⟩ := linked.enter g registered
    obtain rfl := Option.some.inj (next_.symm.trans leads)
    exact .inr (.inr (.inr isModule))
  · obtain rfl := List.mem_singleton.mp among
    obtain rfl := Option.some.inj leads
    exact .inr (.inr (.inl rfl))
  · cases among
  · rcases (startNodes_links linked i k).next tn among m leads with rfl | isModule
    · exact .inr (.inl rfl)
    · exact .inr (.inr (.inr isModule))

theorem exited_spec (linked : LinkedModules mods) :
    Exited keyPart .anotherKey (startNodes mods) (exitedNodes mods) :=
  (Exited.refl (startNodes_inside linked)).setExit (.inr (.inl rfl)) (.inl rfl)

theorem exitedNodes_same (linked : LinkedModules mods) {n : NodeId} (other : ¬ IsModule n) :
    exitedNodes mods n = startNodes mods n := by
  refine (exited_spec linked).same n fun inside tn among => ?_
  rcases inside with rfl | rfl | rfl | isModule
  · obtain ⟨g, registered, rfl⟩ := List.mem_map.mp among
    obtain ⟨⟨x, next_, -⟩, -⟩ := linked.enter g registered
    rw [next_]
    simp
  · rw [List.mem_singleton.mp among]
    simp [defaultTransition]
  · cases among
  · exact absurd isModule other

theorem static_exited (linked : LinkedModules mods) : Static (exitedNodes mods) := by
  refine ⟨fun n noSelect noModule => ?_, ?_⟩
  · have other : ¬ IsModule n := fun ⟨m, k, same⟩ => noModule m k same
    rw [exitedNodes_same linked other]
    cases n with
    | select => exact absurd rfl noSelect
    | mod m k => exact absurd rfl (noModule m k)
    | _ => rfl
  · rw [exitedNodes_same linked (by rintro ⟨m, k, same⟩; cases same)]
    rfl

theorem exitedNodes_links (linked : LinkedModules mods) (m k : ℕ) :
    ModuleLinks (exitedNodes mods (.mod m k)).tl := by
  have start := startNodes_links linked m k
  have spec := exited_spec linked
  refine ⟨fun tn among x leads => ?_, fun tn among f isFunc => ?_⟩
  · obtain ⟨tn₀, among₀, -, same | exit⟩ := spec.origin (.mod m k) tn among
    · exact start.next tn₀ among₀ x (same.symm.trans leads)
    · exact .inl (Option.some.inj (exit.symm.trans leads)).symm
  · obtain ⟨tn₀, among₀, func, -⟩ := spec.origin (.mod m k) tn among
    exact start.func tn₀ among₀ f (func.symm.trans isFunc)

theorem exitedNodes_module (confined : Confined mods) (m k : ℕ) :
    ModuleNode (exitedNodes mods (.mod m k)) := by
  have links := exitedNodes_links confined.linked m k
  refine ⟨?_, links.next, links.func⟩
  obtain ⟨tl, fields⟩ := (exited_spec confined.linked).fields (.mod m k)
  rw [fields]
  exact (startNodes_module confined m k).names

theorem mountNodes_module (m k : ℕ) :
    mountNodes version mods (.mod m k) = exitedNodes mods (.mod m k) := fill_mod version m k

theorem mountNodes_select (linked : LinkedModules mods) : mountNodes version mods .select =
    { staticNode .select with tl := mods.map GraphModule.trans } := by
  have same := exitedNodes_same linked (n := .select) (by rintro ⟨m, k, same⟩; cases same)
  exact (fillInVersionSupport_other (by decide)).trans same

theorem mountNodes_static (linked : LinkedModules mods) {n : NodeId} (other : n ∉ versioned)
    (noSelect : n ≠ .select) (noModule : ∀ m k, n ≠ .mod m k) :
    mountNodes version mods n = staticNode n := by
  have static := (static_exited linked).same n noSelect noModule
  exact (fillInVersionSupport_other other).trans static

/-! ## Into a module and out of it -/

/-- A key of an option list: the module it names, by number and alias, the attributes that are given
for it, and the signature that the module makes of them. -/
structure KeySpec where
  keyMod : ℕ
  modAlias : CStr
  attributes : List (CStr × Option CStr)
  sig : CStr

/-- The entries of the list that make up a key. -/
def KeySpec.entries (k : KeySpec) : List NameValPair :=
  ⟨lit "key", some k.modAlias, false⟩ :: k.attributes.map fun a => ⟨a.1, a.2, false⟩

/-- The first registered module with the alias of the key is its module. -/
structure Registered (mods : List GraphModule) (k : KeySpec) (g : GraphModule) : Prop where
  module : mods[k.keyMod]? = some g
  modAlias : g.trans.val = some k.modAlias
  first : ∀ i < k.keyMod, ∀ g', mods[i]? = some g' → g'.trans.val ≠ some k.modAlias
  real : k.modAlias ≠ nullText
  few : mods.length ≤ maxNumTransitions

/-- No list entry has the name of a transition of the graph into the modules. -/
def NoLabels (mods : List GraphModule) (names : List CStr) : Prop :=
  lit "default" ∉ names ∧ ∀ g ∈ mods, ∀ l, g.trans.val = some l → l ∉ names

variable {names : List CStr} {q q' : CStr → List (Option CStr)} {w w' w₁ : MountWorld} {k : KeySpec}
  {g : GraphModule}

/-- The world in which the function of the transition into a module is called. -/
def selected (k : KeySpec) (w : MountWorld) : MountWorld :=
  (setFirstNext w .root (some .select)).setNode .select
    { w.nodes .select with val := some k.modAlias }

theorem setFirstNext_other {n k : NodeId} {x : Option NodeId} (other : k ≠ n) :
    (setFirstNext w n x).nodes k = w.nodes k :=
  w.nodes_setNode_of_ne _ other

theorem root_walks (node : w.nodes .root = staticNode .root) (unnamed : lit "default" ∉ names)
    (noSig : q (lit "sig") = []) :
    Walks (mountCall (moduleCalls mods)) names .root w q .select (setFirstNext w .root (some .select))
      q := by
  have only : (w.nodes .root).tl = [defaultTransition (some .cipher) (some .sig)] := by
    rw [node]
    rfl
  have val : (w.nodes .root).val = none := by
    rw [node]
    rfl
  refine walks_only (receives_nothing ?_) only unnamed (by rw [val]; simp)
    (by decide : (0 : ℤ) ≤ 0 ∧ _) (fun nvps _ => ?_) ?_
  · rw [node]
    exact ⟨⟨rfl, rfl, rfl⟩, List.forall_mem_singleton.mpr noSig, .inr rfl⟩
  · change sigCallback .root w = _
    unfold sigCallback
    rw [val]
  · rw [nextToken, transition, setFirstNext_nodes only, Function.update_self]
    rfl

/-- **The way into a module.**  The key entry is taken, and its module is entered. -/
theorem enter_walks (confined : Confined mods) (registered : Registered mods k g)
    (root : w.nodes .root = staticNode .root)
    (select : w.nodes .select = { staticNode .select with tl := mods.map GraphModule.trans })
    (noLabels : NoLabels mods names) (noSig : q (lit "sig") = []) {rest : List (Option CStr)}
    (first : q (lit "key") = some k.modAlias :: rest) {entry : NodeId}
    (leads : g.trans.nextToken = some entry)
    (called : ∀ nvps, Offers names (Function.update q (lit "key") rest) nvps →
      transFunc (mountCall (moduleCalls mods)) 0 g.trans.transFunc .select nvps (selected k w) =
        .ok (0, w₁))
    (kept : w₁.nodes .select = (selected k w).nodes .select) :
    Walks (mountCall (moduleCalls mods)) names .root w q entry w₁
      (Function.update q (lit "key") rest) := by
  have select' : (setFirstNext w .root (some .select)).nodes .select = w.nodes .select :=
    setFirstNext_other (by decide)
  have node : (selected k w).nodes .select = { w.nodes .select with val := some k.modAlias } :=
    World.nodes_setNode_self _ _ _
  have tl : ((selected k w).nodes .select).tl = mods.map GraphModule.trans := by
    rw [node, select]
  have receives : Receives names .select (setFirstNext w .root (some .select)) q (selected k w)
      (Function.update q (lit "key") rest) := by
    have entry_ := @receives_entry _ _ _ _ names .select (setFirstNext w .root (some .select)) q
      (lit "key") k.modAlias rest (by rw [select', select]; exact ⟨rfl, rfl, rfl⟩)
      (by rw [select', select]; rfl) first registered.real
    rwa [select'] at entry_
  have bound : k.keyMod < maxNumTransitions :=
    (List.getElem?_eq_some_iff.mp registered.module).1.trans_le registered.few
  refine (root_walks root noLabels.1 noSig).trans (walks_matched k.keyMod g.trans
    receives ?_ ?_ (fun i low u there => ?_) bound fun nvps offers => ⟨?_, called nvps offers,
      by decide, ?_⟩)
  · rw [registered.modAlias]
    rfl
  · rw [registered.modAlias, node]
  · rw [transition, tl, List.getElem?_map, Option.map_eq_some_iff] at there
    obtain ⟨g', found, rfl⟩ := there
    have inside := List.mem_of_getElem? found
    obtain ⟨⟨l, isLabel⟩, -⟩ := confined.enter g' inside
    refine ⟨l, isLabel, noLabels.2 g' inside l isLabel, ?_⟩
    rw [node, ← isLabel]
    exact registered.first i low g' found
  · rw [transition, tl, List.getElem?_map, registered.module]
    rfl
  · rw [nextToken, transition, kept, tl, List.getElem?_map, registered.module]
    exact leads

theorem findAnotherKey_none (tl : List (TransitionNode NodeId Callback)) {nvps : List NameValPair}
    (absent : ¬ Pending (lit "key") nvps) : findAnotherKey tl nvps = .ok false := by
  induction nvps with
  | nil => rfl
  | cons e es ih =>
    unfold Pending at absent
    rw [List.exists_mem_cons_iff, not_or] at absent
    have skipped : e.processed = true ∨ e.name ≠ lit "key" := by
      by_cases isKey : e.name = lit "key"
      · left
        rw [← Bool.not_eq_false]
        exact fun fresh => absent.1 ⟨isKey, fresh⟩
      · exact .inr isKey
    rw [findAnotherKey, if_pos skipped]
    exact ih absent.2

/-- **The way out of the modules**, when there is no further key. -/
theorem leave_walks (node : w.nodes .anotherKey = staticNode .anotherKey)
    (unnamed : lit "default" ∉ names) (absent : q (lit "another_key") = [])
    (noKey : q (lit "key") = []) :
    Walks (mountCall (moduleCalls mods)) names .anotherKey w q .cipher
      (setFirstNext w .anotherKey (some .cipher)) q := by
  have only : (w.nodes .anotherKey).tl = [defaultTransition (some .cipher) (some .anotherKey)] := by
    rw [node]
    rfl
  have val : (w.nodes .anotherKey).val = none := by
    rw [node]
    rfl
  refine walks_only (receives_nothing ?_) only unnamed (by rw [val]; simp)
    (by decide : (0 : ℤ) ≤ 0 ∧ _) (fun nvps offers => ?_) ?_
  · rw [node]
    exact ⟨⟨rfl, rfl, rfl⟩, List.forall_mem_singleton.mpr absent, .inr rfl⟩
  · change anotherKeyCallback nvps .anotherKey w = _
    unfold anotherKeyCallback
    rw [findAnotherKey_none _ (offers.absent noKey)]
    rfl
  · rw [nextToken, transition, setFirstNext_nodes only, Function.update_self]
    rfl

/-- What the list gives to the modules when it has the attributes of one key only. -/
structure KeyGiven (mods : List GraphModule) (k : KeySpec) (names : List CStr)
    (q : CStr → List (Option CStr)) : Prop where
  attributes : ∀ x, Attribute mods x → q x = queue x k.entries
  named : ∀ x ∈ names, Attribute mods x → x ∈ k.entries.map NameValPair.name
  unnamed : lit "default" ∉ names

/-- **The attributes that a module needs.**  Entered with the attributes of the key, the module leaves
by `anotherKey` and has put the signature of the key on the stack. -/
def Completes (version : UInt32) (mods : List GraphModule) (k : KeySpec) (g : GraphModule) : Prop :=
  ∀ names q w, KeyGiven mods k names q →
    (∀ m j, w.nodes (.mod m j) = mountNodes version mods (.mod m j)) →
    (w.nodes .select).val = some k.modAlias →
    ∃ entry w₁ w' q', g.trans.nextToken = some entry ∧
      (∀ nvps, Offers names q nvps → transFunc (mountCall (moduleCalls mods)) 0 g.trans.transFunc
        .select nvps w = .ok (0, w₁)) ∧ KeepsGraph w w₁ ∧
      Walks (mountCall (moduleCalls mods)) names entry w₁ q .anotherKey w' q' ∧ KeepsGraph w w' ∧
      (∀ x, ¬ Attribute mods x → q' x = q x) ∧
      signatures w'.stack = param "ecryptfs_sig=" k.sig :: signatures w.stack

end Ecryptfs
