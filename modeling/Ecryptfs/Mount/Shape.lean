import Ecryptfs.Graph.Quiet
import Ecryptfs.Mount.Modules

/-!
# The shape of the mount graph

What `ecryptfs_process_decision_graph` has built when the evaluation starts: the features that the
kernel supports stand in a chain behind `versionSupport`, and the open ends of the key modules lead
to `anotherKey`.
-/

namespace Ecryptfs

/-! ## The chain of the features -/

/-- A node whose transitions all lead to `x`, if there is one. -/
def linked (node : MountNode) (x : Option NodeId) : MountNode :=
  match x with
  | none => node
  | some x => { node with tl := node.tl.map fun tn => { tn with nextToken := some x } }

theorem chainNodes_other {last n : NodeId} {chain : List NodeId} {nodes : NodeId → MountNode}
    (outside : n ∉ last :: chain) : chainNodes last chain nodes n = nodes n := by
  induction chain generalizing last nodes with
  | nil => rfl
  | cons c rest ih =>
    rw [List.mem_cons, not_or] at outside
    rw [chainNodes, ih outside.2, setNextTokens, Function.update_of_ne outside.1]

/-- Each node of the chain leads to the one after it. -/
theorem chainNodes_link {last n : NodeId} {chain before after : List NodeId}
    {nodes : NodeId → MountNode} (nodup : (last :: chain).Nodup)
    (here : last :: chain = before ++ n :: after) :
    chainNodes last chain nodes n = linked (nodes n) after.head? := by
  induction chain generalizing last nodes before with
  | nil =>
    cases before with
    | nil =>
      obtain ⟨rfl, rfl⟩ := List.cons.inj here
      rfl
    | cons b before =>
      have := congrArg List.length here
      simp at this
  | cons c rest ih =>
    rw [chainNodes]
    cases before with
    | nil =>
      obtain ⟨rfl, rfl⟩ := List.cons.inj here
      rw [chainNodes_other (List.nodup_cons.mp nodup).1, setNextTokens, Function.update_self]
      rfl
    | cons b before =>
      obtain ⟨rfl, there⟩ := List.cons.inj here
      have other : n ≠ last := by
        rintro rfl
        exact (List.nodup_cons.mp nodup).1 (there ▸ by simp)
      rw [ih (List.nodup_cons.mp nodup).2 there, setNextTokens, Function.update_of_ne other]

/-- A number that decreases along the way from the cipher to the end; the nodes of the keys are in
front of it. -/
def depthToEnd : NodeId → ℕ
  | .cipher => 14
  | .keyBytes => 13
  | .versionSupport => 12
  | .passthrough => 11
  | .hmac => 10
  | .xattr => 9
  | .encryptedPassthrough => 8
  | .fnekSig => 7
  | .enableFilenameCrypto => 6
  | .end_ => 1
  | _ => 15

theorem featureChain_sorted (version : UInt32) :
    (.versionSupport :: featureChain version).Pairwise fun a b => depthToEnd b < depthToEnd a := by
  unfold featureChain
  cases supports version versioningPlaintextPassthrough <;>
    cases supports version versioningHmac <;>
    cases supports version versioningXattr <;>
    cases supports version versioningFilenameEncryption <;>
    decide

theorem featureChain_nodup (version : UInt32) : (.versionSupport :: featureChain version).Nodup :=
  (featureChain_sorted version).imp fun less same => (lt_irrefl _ (same ▸ less)).elim

/-! ## Ciphers and features -/

/-- The nodes that `fillInVersionSupport` works on. -/
def versioned : List NodeId :=
  [.cipher, .versionSupport, .passthrough, .hmac, .xattr, .encryptedPassthrough, .fnekSig,
    .enableFilenameCrypto]

theorem featureChain_versioned (version : UInt32) :
    ∀ n ∈ .versionSupport :: featureChain version, n ∈ versioned ∧ n ≠ .cipher ∧ n ≠ .enableFilenameCrypto := by
  unfold featureChain
  cases supports version versioningPlaintextPassthrough <;>
    cases supports version versioningHmac <;>
    cases supports version versioningXattr <;>
    cases supports version versioningFilenameEncryption <;>
    decide

/-- The nodes before the features are chained. -/
def beforeChain (version : UInt32) (nodes : NodeId → MountNode) : NodeId → MountNode :=
  let nodes := Function.update nodes .cipher (initCipherNode (nodes .cipher))
  let nodes :=
    if supports version versioningPlaintextPassthrough then
      Function.update nodes .passthrough
        { nodes .passthrough with suggestedVal := some (lit "n") }
    else nodes
  if supports version versioningFilenameEncryption then
    Function.update nodes .enableFilenameCrypto
      { nodes .enableFilenameCrypto with suggestedVal := some (lit "n") }
  else nodes

theorem fillInVersionSupport_eq (version : UInt32) (nodes : NodeId → MountNode) :
    fillInVersionSupport version nodes =
      chainNodes .versionSupport (featureChain version) (beforeChain version nodes) := rfl

theorem beforeChain_cipher (version : UInt32) (nodes : NodeId → MountNode) :
    beforeChain version nodes .cipher = initCipherNode (nodes .cipher) := by
  unfold beforeChain
  dsimp only
  split_ifs <;> rfl

/-- Apart from the cipher, only some suggested values are filled in before the chain. -/
theorem beforeChain_spec (version : UInt32) (nodes : NodeId → MountNode) (n : NodeId)
    (other : n ≠ .cipher) :
    ∃ suggested, beforeChain version nodes n = { nodes n with suggestedVal := suggested } := by
  unfold beforeChain
  dsimp only
  cases n with
  | cipher => exact absurd rfl other
  | _ => split_ifs <;> exact ⟨_, rfl⟩

theorem fillInVersionSupport_other {version : UInt32} {nodes : NodeId → MountNode} {n : NodeId}
    (other : n ∉ versioned) : fillInVersionSupport version nodes n = nodes n := by
  rw [fillInVersionSupport_eq,
    chainNodes_other fun inside => other (featureChain_versioned version n inside).1]
  unfold beforeChain
  dsimp only
  cases n with
  | cipher => exact absurd (by decide) other
  | passthrough => exact absurd (by decide) other
  | enableFilenameCrypto => exact absurd (by decide) other
  | _ => split_ifs <;> rfl

theorem fillInVersionSupport_cipher (version : UInt32) (nodes : NodeId → MountNode) :
    fillInVersionSupport version nodes .cipher = initCipherNode (nodes .cipher) := by
  rw [fillInVersionSupport_eq,
    chainNodes_other fun inside => (featureChain_versioned version _ inside).2.1 rfl,
    beforeChain_cipher]

/-- A node other than the cipher keeps all but its suggested value and the way its transitions
lead: to the next node of the chain, if it is in the chain and not at its end. -/
theorem fillInVersionSupport_spec (version : UInt32) (nodes : NodeId → MountNode) (n : NodeId)
    (other : n ≠ .cipher) : ∃ suggested next,
      fillInVersionSupport version nodes n =
        linked { nodes n with suggestedVal := suggested } next ∧
      ∀ x, next = some x → depthToEnd x < depthToEnd n ∧
        x ∈ .versionSupport :: featureChain version := by
  obtain ⟨suggested, before⟩ := beforeChain_spec version nodes n other
  rw [fillInVersionSupport_eq]
  by_cases inside : n ∈ .versionSupport :: featureChain version
  · obtain ⟨front, after, here⟩ := List.append_of_mem inside
    refine ⟨suggested, after.head?, ?_, fun x next_ => ?_⟩
    · rw [chainNodes_link (featureChain_nodup version) here, before]
    · have sorted := featureChain_sorted version
      have member : x ∈ .versionSupport :: featureChain version := by
        rw [here]
        simp [List.mem_of_mem_head? next_]
      rw [here, List.pairwise_append, List.pairwise_cons] at sorted
      exact ⟨sorted.2.1.1 x (List.mem_of_mem_head? next_), member⟩
  · refine ⟨suggested, none, ?_, fun x next_ => by cases next_⟩
    rw [chainNodes_other inside, before]
    rfl

/-- Only the transitions and the suggested value of a node are filled in. -/
theorem fillInVersionSupport_fields (version : UInt32) (nodes : NodeId → MountNode) (n : NodeId) :
    ∃ tl suggested, fillInVersionSupport version nodes n =
      { nodes n with tl := tl, suggestedVal := suggested } := by
  by_cases isCipher : n = .cipher
  · rw [isCipher, fillInVersionSupport_cipher]
    exact ⟨_, _, rfl⟩
  · obtain ⟨suggested, next, filled, -⟩ := fillInVersionSupport_spec version nodes n isCipher
    rw [filled]
    cases next with
    | none => exact ⟨_, suggested, rfl⟩
    | some x => exact ⟨_, suggested, rfl⟩

/-- The transitions of a feature keep their function, and lead to a node further on. -/
theorem fillInVersionSupport_tl {version : UInt32} {nodes : NodeId → MountNode} {n : NodeId}
    {tn : TransitionNode NodeId Callback} (other : n ≠ .cipher)
    (among : tn ∈ (fillInVersionSupport version nodes n).tl) :
    ∃ tn₀ ∈ (nodes n).tl, tn.transFunc = tn₀.transFunc ∧
      (tn.nextToken = tn₀.nextToken ∨ ∃ x, tn.nextToken = some x ∧ depthToEnd x < depthToEnd n ∧
        x ∈ .versionSupport :: featureChain version) := by
  obtain ⟨suggested, next, filled, leads⟩ := fillInVersionSupport_spec version nodes n other
  rw [filled] at among
  cases next with
  | none => exact ⟨tn, among, rfl, .inl rfl⟩
  | some x =>
    obtain ⟨tn₀, among₀, rfl⟩ := List.mem_map.mp among
    exact ⟨tn₀, among₀, rfl, .inr ⟨x, rfl, leads x rfl⟩⟩

/-- The chain does not change the ways out of the nodes of filename encryption. -/
theorem fillInVersionSupport_filename {version : UInt32} {nodes : NodeId → MountNode} {n : NodeId}
    (filename : n = .fnekSig ∨ n = .enableFilenameCrypto) :
    (fillInVersionSupport version nodes n).tl = (nodes n).tl := by
  have late : n ≠ .cipher ∧ depthToEnd n ≤ 7 := by
    rcases filename with rfl | rfl <;> decide
  obtain ⟨suggested, next, filled, leads⟩ := fillInVersionSupport_spec version nodes n late.1
  rw [filled]
  cases next with
  | none => rfl
  | some x =>
    obtain ⟨less, member⟩ := leads x rfl
    obtain ⟨kind, other, other'⟩ := featureChain_versioned version x member
    have early : ∀ y ∈ versioned, y ≠ .cipher → y ≠ .enableFilenameCrypto → 7 ≤ depthToEnd y := by
      decide
    have := early x kind other other'
    omega

/-! ## The ways out of the key modules -/

/-- The salt node of the passphrase module with its way out of the subgraph. -/
def saltExit : MountNode :=
  { passphraseNode 0 4 with tl := [defaultTransition (some .anotherKey) (some (.mod 0 2))] }

/-- The nodes of the passphrase module with its way out. -/
def passphraseExited (env : MountEnv) : NodeId → MountNode :=
  Function.update (startNodes [passphraseModule env 0]) (.mod 0 4) saltExit

theorem passphraseExited_closed (env : MountEnv) : Closed (passphraseExited env) fun n =>
    n ∈ [.mod 0 1, .mod 0 2, .mod 0 3, .mod 0 4, .anotherKey, .cipher] := by
  intro n inside
  simp only [List.mem_cons, List.not_mem_nil, or_false] at inside
  rcases inside with rfl | rfl | rfl | rfl | rfl | rfl <;>
    simp [passphraseExited, startNodes, passphraseModule, passphraseNode, saltExit, staticNode,
      defaultTransition]

/-- The salt node is the only open end of the passphrase module. -/
theorem setExit_passphrase (env : MountEnv) :
    setExit .anotherKey graphDepth .select (startNodes [passphraseModule env 0]) =
      passphraseExited env := by
  have closed := passphraseExited_closed env
  have salt : ∀ d, setExit .anotherKey (d + 1) (.mod 0 4) (startNodes [passphraseModule env 0]) =
      passphraseExited env :=
    fun d => @setExit_open _ _ _ (startNodes [passphraseModule env 0]) _ (.mod 0 4) d _ rfl rfl
  have passwd : ∀ d, setExit .anotherKey (d + 1 + 1) (.mod 0 1)
      (startNodes [passphraseModule env 0]) = passphraseExited env :=
    fun d => setExit_descend (n := .mod 0 1) rfl rfl (salt d) rfl closed (by simp)
  have type : ∀ d, setExit .anotherKey (d + 1 + 1 + 1) (.mod 0 0)
      (startNodes [passphraseModule env 0]) = passphraseExited env :=
    fun d => setExit_descend (n := .mod 0 0) rfl rfl (passwd d) rfl closed (by simp)
  have select : (startNodes [passphraseModule env 0] .select).tl =
      [⟨some (lit "passphrase"), some (.mod 0 0), none⟩] := rfl
  have all : ∀ d, setExit .anotherKey (d + 1 + 1 + 1 + 1) .select
      (startNodes [passphraseModule env 0]) = passphraseExited env :=
    fun d => setExit_descend select rfl (type d) rfl closed (by simp)
  exact all 60

/-- The nodes of a module without parameters with its way out. -/
def linearExited (env : MountEnv) (aliases : List CStr) (name : CStr) : NodeId → MountNode :=
  Function.update (startNodes [linearModule env aliases 0 name []]) (.mod 0 0)
    { mntOptNames := ["linear_subgraph_exit_dummy_node"]
      flags := { noValue := true }
      tl := [defaultTransition (some .anotherKey) (some (.mod 0 2))] }

theorem setExit_linear (env : MountEnv) (aliases : List CStr) (name : CStr) :
    setExit .anotherKey graphDepth .select (startNodes [linearModule env aliases 0 name []]) =
      linearExited env aliases name := by
  have closed : Closed (linearExited env aliases name) fun _ => False := fun n inside => inside.elim
  have dummy : ∀ d, setExit .anotherKey (d + 1) (.mod 0 0)
      (startNodes [linearModule env aliases 0 name []]) = linearExited env aliases name :=
    fun d => @setExit_open _ _ _ (startNodes [linearModule env aliases 0 name []]) _ (.mod 0 0) d _
      rfl rfl
  have select : (startNodes [linearModule env aliases 0 name []] .select).tl =
      [⟨some name, some (.mod 0 0), some (.mod 0 0)⟩] := rfl
  have all : ∀ d, setExit .anotherKey (d + 1 + 1) .select
      (startNodes [linearModule env aliases 0 name []]) = linearExited env aliases name :=
    fun d => setExit_descend select rfl (dummy d) rfl closed (by simp)
  exact all 62

/-- The nodes that are the same for all key modules before the features are filled in. -/
structure Static (nodes : NodeId → MountNode) : Prop where
  same : ∀ n, n ≠ .select → (∀ m k, n ≠ .mod m k) → nodes n = staticNode n
  select : nodes .select = { staticNode .select with tl := (nodes .select).tl }

/-- Only a node of a module has been changed. -/
theorem static_update (mods : List GraphModule) (m k : ℕ) (node : MountNode) :
    Static (Function.update (startNodes mods) (.mod m k) node) := by
  constructor
  · intro n other noModule
    rw [Function.update_of_ne (noModule m k)]
    cases n with
    | select => exact absurd rfl other
    | mod i j => exact absurd rfl (noModule i j)
    | _ => rfl
  · rw [Function.update_of_ne (by simp)]
    rfl

theorem static_passphrase (env : MountEnv) : Static (passphraseExited env) :=
  static_update [passphraseModule env 0] 0 4 saltExit

theorem static_linear (env : MountEnv) (aliases : List CStr) (name : CStr) :
    Static (linearExited env aliases name) :=
  static_update [linearModule env aliases 0 name []] 0 0 _

theorem Static.cipher {nodes : NodeId → MountNode} (static : Static nodes) (version : UInt32) :
    ∀ tn ∈ (fillInVersionSupport version nodes .cipher).tl,
      tn.nextToken = some .keyBytes ∧ tn.transFunc = some .cipher := by
  rw [fillInVersionSupport_cipher, static.same .cipher (by decide) (by simp)]
  decide

theorem fill_mod {nodes : NodeId → MountNode} (version : UInt32) (m k : ℕ) :
    fillInVersionSupport version nodes (.mod m k) = nodes (.mod m k) :=
  fillInVersionSupport_other (by simp [versioned])

end Ecryptfs
