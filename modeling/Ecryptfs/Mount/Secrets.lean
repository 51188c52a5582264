import Ecryptfs.Graph.Endings
import Ecryptfs.Mount.CipherChoice
import Ecryptfs.Mount.MountOptions

/-!
# What is left on the stack

`tf_passwd` and `tf_pass_file` push the passphrase itself, and `tf_salt` takes it off again.  Whatever is on
the stack when an evaluation succeeds is passed to the mount command, so no passphrase may be left there.
-/

namespace Ecryptfs

open StateTransition

variable {version : UInt32} {mods : List GraphModule} {g : NodeId → MountNode} {n : NodeId}
  {w w' : MountWorld} {nvps : List NameValPair} {code : ℤ}

/-! ## The graph of the key modules -/

/-- What stays of a node of a key module. -/
structure SameNode (node node' : MountNode) : Prop where
  default : node'.defaultVal = node.defaultVal
  implicit : node'.flags.allowImplicitTransition = node.flags.allowImplicitTransition
  tl : node'.tl = node.tl

/-- The transitions of a node that belongs to no key module. -/
structure StaticLinks (tl : List (TransitionNode NodeId Callback)) : Prop where
  next : ∀ tn ∈ tl, ∀ x, tn.nextToken = some x → ¬ IsModule x
  func : ∀ tn ∈ tl, ∀ m c, tn.transFunc ≠ some (.mod m c)

/-- The key modules are entered from `select` only and have the nodes of the graph `g`. -/
structure Tame (g : NodeId → MountNode) (w : MountWorld) : Prop where
  modules : ∀ m k, SameNode (g (.mod m k)) (w.nodes (.mod m k))
  select : (w.nodes .select).tl = (g .select).tl
  others : ∀ n, ¬ IsModule n → n ≠ .select → StaticLinks (w.nodes n).tl

theorem SameNode.refl (node : MountNode) : SameNode node node := ⟨rfl, rfl, rfl⟩

theorem SameNode.trans {a b c : MountNode} (first : SameNode a b) (second : SameNode b c) : SameNode a c :=
  ⟨second.default.trans first.default, second.implicit.trans first.implicit, second.tl.trans first.tl⟩

/-- The nodes keep what has to stay. -/
theorem Tame.same (tame : Tame g w) (same : ∀ k, SameNode (w.nodes k) (w'.nodes k)) : Tame g w' where
  modules m k := (tame.modules m k).trans (same _)
  select := (same .select).tl.trans tame.select
  others n static noSelect := (same n).tl ▸ tame.others n static noSelect

theorem Tame.setNode (tame : Tame g w) {node : MountNode} (same : SameNode (w.nodes n) node) :
    Tame g (w.setNode n node) := by
  refine tame.same fun k => ?_
  by_cases here : k = n
  · subst here
    rw [w.nodes_setNode_self]
    exact same
  · rw [w.nodes_setNode_of_ne node here]
    exact .refl _

theorem Tame.modify (tame : Tame g w) {f : MountNode → MountNode} (same : ∀ node, SameNode node (f node)) :
    Tame g (w.modify n f) := tame.setNode (same _)

theorem Tame.onlyVal (tame : Tame g w) (only : OnlyVal n w w') : Tame g w' := by
  obtain ⟨v, nodes⟩ := only
  have set : Tame g (w.setNode n { w.nodes n with val := v }) := tame.setNode ⟨rfl, rfl, rfl⟩
  exact set.same fun k => nodes ▸ .refl _

theorem Tame.clearVal (tame : Tame g w) : Tame g (clearVal w n) := tame.onlyVal (.clear rfl)

/-- A node that belongs to no key module gets other transitions. -/
theorem Tame.relink (tame : Tame g w) (static : ¬ IsModule n) (noSelect : n ≠ .select) {node : MountNode}
    (links : StaticLinks node.tl) : Tame g (w.setNode n node) where
  modules m k := by
    rw [w.nodes_setNode_of_ne node fun same => static ⟨m, k, same.symm⟩]
    exact tame.modules m k
  select := by
    rw [w.nodes_setNode_of_ne node noSelect.symm]
    exact tame.select
  others k static' noSelect' := by
    by_cases here : k = n
    · subst here
      rw [w.nodes_setNode_self]
      exact links
    · rw [w.nodes_setNode_of_ne node here]
      exact tame.others k static' noSelect'

theorem StaticLinks.redirect {tl : List (TransitionNode NodeId Callback)} (links : StaticLinks tl)
    {x : Option NodeId} (target : ∀ k, x = some k → ¬ IsModule k) :
    StaticLinks (tl.modifyHead fun tn => { tn with nextToken := x }) := by
  cases tl with
  | nil => exact links
  | cons head tail =>
    rw [List.modifyHead_cons]
    refine ⟨fun tn among k leads => ?_, fun tn among m c => ?_⟩
    · rcases List.mem_cons.mp among with rfl | among
      · exact target k leads
      · exact links.next tn (List.mem_cons_of_mem head among) k leads
    · rcases List.mem_cons.mp among with rfl | among
      · exact links.func head List.mem_cons_self m c
      · exact links.func tn (List.mem_cons_of_mem head among) m c

theorem Tame.setFirstNext (tame : Tame g w) (static : ¬ IsModule n) (noSelect : n ≠ .select)
    {x : Option NodeId} (target : ∀ k, x = some k → ¬ IsModule k) : Tame g (setFirstNext w n x) :=
  tame.relink static noSelect ((tame.others n static noSelect).redirect target)

theorem Tame.firstNext (tame : Tame g w) (static : ¬ IsModule n) (noSelect : n ≠ .select) :
    ∀ k, firstNext w n = some k → ¬ IsModule k := by
  intro k leads
  obtain ⟨tn, there, next⟩ := Option.bind_eq_some_iff.mp leads
  exact (tame.others n static noSelect).next tn (List.mem_of_getElem? there) k next

theorem Tame.push (tame : Tame g w) (v : Option CStr) : Tame g (w.push v) := tame.same fun _ => .refl _

theorem static_enable : ¬ IsModule .enableFilenameCrypto := by
  rintro ⟨m, k, same⟩
  cases same

theorem static_fnekSig : ¬ IsModule .fnekSig := by
  rintro ⟨m, k, same⟩
  cases same

theorem Tame.fnekSigCallback (tame : Tame g w) (static : ¬ IsModule n) (noSelect : n ≠ .select)
    (h : fnekSigCallback n w = .ok (code, w')) : Tame g w' := by
  have flags : Tame g (w.modify n fun node => { node with flags := { echoInput := true } }) :=
    tame.relink static noSelect (tame.others n static noSelect)
  have enable := flags.setFirstNext static_enable (by decide) (flags.firstNext static noSelect)
  have spliced := enable.setFirstNext static noSelect (x := some .enableFilenameCrypto) fun k same =>
    Option.some.inj same ▸ static_enable
  unfold Ecryptfs.fnekSigCallback at h
  dsimp only at h
  split at h
  · obtain ⟨-, rfl⟩ := Prod.mk.inj (Except.ok.inj h)
    exact spliced
  · split_ifs at h
    · obtain ⟨-, rfl⟩ := Prod.mk.inj (Except.ok.inj h)
      exact spliced
    · obtain ⟨-, rfl⟩ := Prod.mk.inj (Except.ok.inj h)
      exact tame.push _

theorem Tame.getEnableFilenameCrypto (tame : Tame g w) (static : ¬ IsModule n) (noSelect : n ≠ .select)
    (h : getEnableFilenameCrypto n w = .ok (code, w')) : Tame g w' := by
  have target := tame.firstNext static noSelect
  have fnek := tame.others .fnekSig static_fnekSig (by decide)
  have redirected : Tame g (w.modify .fnekSig fun node =>
      { node with tl := node.tl.map fun tn => { tn with nextToken := Ecryptfs.firstNext w n } }) := by
    refine tame.relink static_fnekSig (by decide) ⟨fun tn among k leads => ?_, fun tn among m c => ?_⟩
    · obtain ⟨tn', -, rfl⟩ := List.mem_map.mp among
      exact target k leads
    · obtain ⟨tn', among', rfl⟩ := List.mem_map.mp among
      exact fnek.func tn' among' m c
  have spliced := redirected.setFirstNext static noSelect (x := some .fnekSig) fun k same =>
    Option.some.inj same ▸ static_fnekSig
  unfold Ecryptfs.getEnableFilenameCrypto at h
  dsimp only at h
  split_ifs at h
  · split at h
    · cases h
    · obtain ⟨-, rfl⟩ := Prod.mk.inj (Except.ok.inj h)
      exact spliced.clearVal
    · obtain ⟨-, rfl⟩ := Prod.mk.inj (Except.ok.inj h)
      refine (spliced.modify fun node => ?_).clearVal
      exact ⟨rfl, rfl, rfl⟩
  · obtain ⟨-, rfl⟩ := Prod.mk.inj (Except.ok.inj h)
    exact tame.clearVal
  · obtain ⟨-, rfl⟩ := Prod.mk.inj (Except.ok.inj h)
    exact tame.clearVal

theorem Tame.tfCipher (tame : Tame g w) (h : tfCipher n w = .ok (code, w')) : Tame g w' := by
  have static : ¬ IsModule .keyBytes := by
    rintro ⟨m, k, same⟩
    cases same
  unfold Ecryptfs.tfCipher at h
  split at h
  · cases h
  · next scan _ =>
    have scanned : Tame g ({ w with stack := scan.stack } : MountWorld) := tame.same fun _ => .refl _
    dsimp only at h
    split_ifs at h
    · obtain ⟨-, rfl⟩ := Prod.mk.inj (Except.ok.inj h)
      exact scanned
    · split at h
      · cases h
      · obtain ⟨-, rfl⟩ := Prod.mk.inj (Except.ok.inj h)
        exact scanned
      · next node filled =>
        obtain ⟨-, rfl⟩ := Prod.mk.inj (Except.ok.inj h)
        refine ((scanned.relink static (by decide) ?_).clearVal).push _
        unfold initKeyBytesNode at filled
        dsimp only at filled
        split at filled
        · cases filled
        · split_ifs at filled
          · cases filled
          · obtain rfl := Except.ok.inj (Except.ok.inj filled)
            have links := tame.others .keyBytes static (by decide)
            refine ⟨fun tn among k leads => ?_, fun tn among m c => ?_⟩
            · rcases List.mem_append.mp among with among | among
              · exact links.next tn among k leads
              · obtain ⟨size, -, rfl⟩ := List.mem_map.mp among
                obtain rfl := Option.some.inj leads
                rintro ⟨m, k, same⟩
                cases same
            · rcases List.mem_append.mp among with among | among
              · exact links.func tn among m c
              · obtain ⟨size, -, rfl⟩ := List.mem_map.mp among
                simp

/-- The callbacks of the graph itself leave the key modules alone. -/
theorem Tame.staticCall (tame : Tame g w) (static : ¬ IsModule n) (noSelect : n ≠ .select) {f : Callback}
    (noModule : ∀ m c, f ≠ .mod m c) (h : mountCall (moduleCalls mods) f n nvps w = .ok (code, w')) :
    Tame g w' := by
  have toSelect : ∀ k, some NodeId.select = some k → ¬ IsModule k := by
    rintro k same ⟨m, j, rfl⟩
    cases same
  have toCipher : ∀ k, some NodeId.cipher = some k → ¬ IsModule k := by
    rintro k same ⟨m, j, rfl⟩
    cases same
  cases f with
  | sig =>
    have h : sigCallback n w = .ok (code, w') := h
    have redirected := tame.setFirstNext static noSelect toSelect
    unfold sigCallback at h
    split at h
    · obtain ⟨-, rfl⟩ := Prod.mk.inj (Except.ok.inj h)
      exact redirected
    · split_ifs at h
      · obtain ⟨-, rfl⟩ := Prod.mk.inj (Except.ok.inj h)
        exact redirected
      · obtain ⟨-, rfl⟩ := Prod.mk.inj (Except.ok.inj h)
        exact tame.push _
  | hmac => exact tame.onlyVal (stackPushIfYes_onlyVal h)
  | passthrough => exact tame.onlyVal (stackPushIfYes_onlyVal h)
  | xattr => exact tame.onlyVal (stackPushIfYes_onlyVal h)
  | encryptedPassthrough => exact tame.onlyVal (stackPushIfYes_onlyVal h)
  | fnekSig => exact tame.fnekSigCallback static noSelect h
  | enableFilenameCrypto => exact tame.getEnableFilenameCrypto static noSelect h
  | keyBytes => exact tame.onlyVal (tfKeyBytes_onlyVal h)
  | cipher => exact tame.tfCipher h
  | anotherKey =>
    have h : anotherKeyCallback nvps n w = .ok (code, w') := h
    unfold anotherKeyCallback at h
    split at h
    · cases h
    · next found _ =>
      obtain ⟨-, rfl⟩ := Prod.mk.inj (Except.ok.inj h)
      cases found
      · exact tame.setFirstNext static noSelect toCipher
      · exact tame.setFirstNext static noSelect toSelect
  | mod m c => exact absurd rfl (noModule m c)

/-! ## The nodes of the passphrase module -/

/-- The words that lead on from the node of the passphrase. -/
def passwdLabels : List CStr := [lit "passphrase_salt", lit "default"]

/-- The transitions of node number `k` of the passphrase module, as module number `m`. -/
def PassphraseLink (m : ℕ) (tn : TransitionNode NodeId Callback) : ℕ → Prop
  | 0 => tn.transFunc = none
  | 1 => tn.transFunc = some (.mod m 0) ∧ tn.nextToken = some (.mod m 4) ∧ ∃ l ∈ passwdLabels, tn.val = some l
  | 2 => tn.transFunc = some (.mod m 1) ∧ tn.nextToken = some (.mod m 4)
  | 3 => tn.transFunc = some (.mod m 1) ∧ tn.nextToken = some (.mod m 4)
  | 4 => tn.transFunc = some (.mod m 2)
  | _ => False

theorem passphrase_link {m k : ℕ} {env : MountEnv} (there : mods[m]? = some (passphraseModule env m))
    {tn : TransitionNode NodeId Callback} (among : tn ∈ (mountNodes version mods (.mod m k)).tl) :
    PassphraseLink m tn k := by
  have patched := setExit_patched .anotherKey graphDepth .select (startNodes mods)
  rw [mountNodes_module] at among
  obtain ⟨tn', among', isPatched⟩ := patched.origin among
  rw [startNodes_passphrase there] at among'
  have link : PassphraseLink m tn' k ∧ (k ∈ [1, 2, 3] → tn'.nextToken ≠ none) := by
    rcases k with _ | _ | _ | _ | _ | k
    · simp only [passphraseNode, List.mem_cons, List.not_mem_nil, or_false] at among'
      rcases among' with rfl | rfl | rfl <;> exact ⟨rfl, by simp⟩
    · simp only [passphraseNode, List.mem_cons, List.not_mem_nil, or_false] at among'
      rcases among' with rfl | rfl <;> exact ⟨⟨rfl, rfl, _, by decide, rfl⟩, by simp⟩
    · simp only [passphraseNode, List.mem_cons, List.not_mem_nil, or_false] at among'
      rcases among' with rfl | rfl <;> exact ⟨⟨rfl, rfl⟩, by simp⟩
    · simp only [passphraseNode, List.mem_cons, List.not_mem_nil, or_false] at among'
      rcases among' with rfl | rfl <;> exact ⟨⟨rfl, rfl⟩, by simp⟩
    · simp only [passphraseNode, List.mem_cons, List.not_mem_nil, or_false] at among'
      obtain rfl := among'
      exact ⟨rfl, by simp⟩
    · cases among'
  rcases isPatched with rfl | ⟨open_, rfl⟩
  · exact link.1
  · rcases k with _ | _ | _ | _ | _ | k
    · exact link.1
    · exact absurd open_ (link.2 (by decide))
    · exact absurd open_ (link.2 (by decide))
    · exact absurd open_ (link.2 (by decide))
    · exact link.1
    · exact link.1

/-- The nodes with callbacks have transitions. -/
theorem passphrase_notLeaf {m k : ℕ} {env : MountEnv} (there : mods[m]? = some (passphraseModule env m))
    (inside : k ∈ [1, 2, 3, 4]) : (mountNodes version mods (.mod m k)).tl ≠ [] := by
  have patched := setExit_patched .anotherKey graphDepth .select (startNodes mods)
  have length := patched.length (.mod m k)
  rw [startNodes_passphrase there] at length
  rw [mountNodes_module]
  intro leaf
  have none_ : (passphraseNode m k).tl.length = 0 := by
    rw [← length]
    exact congrArg List.length leaf
  simp only [List.mem_cons, List.not_mem_nil, or_false] at inside
  rcases inside with rfl | rfl | rfl | rfl <;> simp [passphraseNode] at none_

/-- The node of the salt has a default. -/
theorem salt_default {m : ℕ} {env : MountEnv} (there : mods[m]? = some (passphraseModule env m)) :
    (mountNodes version mods (.mod m 4)).defaultVal = some defaultSaltHex ∧
      (mountNodes version mods (.mod m 4)).flags.allowImplicitTransition = false := by
  have patched := setExit_patched .anotherKey graphDepth .select (startNodes mods)
  obtain ⟨tl, fields⟩ := patched.fields (.mod m 4)
  rw [mountNodes_module]
  unfold exitedNodes
  rw [fields, startNodes_passphrase there]
  exact ⟨rfl, rfl⟩

/-! ## The stack -/

/-- The mount parameters with a value. -/
def valuedParameters : List String :=
  ["ecryptfs_sig=", "ecryptfs_fnek_sig=", "ecryptfs_cipher=", "ecryptfs_key_bytes=", "max_key_bytes="]

/-- The mount parameters for a feature. -/
def featureParameters : List String :=
  ["ecryptfs_hmac", "ecryptfs_passthrough", "ecryptfs_xattr_metadata", "ecryptfs_encrypted_view"]

/-- A mount parameter of the graph. -/
def Parameter (p : CStr) : Prop :=
  (∃ name ∈ valuedParameters, lit name <+: p) ∨ ∃ name ∈ featureParameters, p = lit name

/-- Nothing but parameters is on the stack. -/
def Clean (stack : List (Option CStr)) : Prop := ∀ p, some p ∈ stack → Parameter p

theorem Clean.sublist {stack stack' : List (Option CStr)} (clean : Clean stack)
    (sublist : stack'.Sublist stack) : Clean stack' :=
  fun p among => clean p (sublist.subset among)

theorem Clean.tail {stack : List (Option CStr)} (clean : Clean stack) : Clean stack.tail :=
  clean.sublist (List.tail_sublist stack)

theorem Clean.cons {stack : List (Option CStr)} (clean : Clean stack) {v : CStr} (parameter : Parameter v) :
    Clean (some v :: stack) := by
  intro p among
  rcases List.mem_cons.mp among with same | among
  · exact Option.some.inj same ▸ parameter
  · exact clean p among

theorem Clean.valued {stack : List (Option CStr)} (clean : Clean stack) {name : String}
    (valued : name ∈ valuedParameters) (value : CStr) : Clean (param name value :: stack) :=
  clean.cons (.inl ⟨name, valued, List.prefix_append _ _⟩)

theorem stackPushIfYes_clean {name : String} (feature : name ∈ featureParameters) (clean : Clean w.stack)
    (h : stackPushIfYes name n w = .ok (code, w')) : Clean w'.stack := by
  unfold stackPushIfYes at h
  dsimp only at h
  split_ifs at h
  · obtain ⟨-, rfl⟩ := Prod.mk.inj (Except.ok.inj h)
    exact clean.cons (.inr ⟨name, feature, rfl⟩)
  · obtain ⟨-, rfl⟩ := Prod.mk.inj (Except.ok.inj h)
    exact clean
  · obtain ⟨-, rfl⟩ := Prod.mk.inj (Except.ok.inj h)
    exact clean

/-- The callbacks of the graph itself push parameters. -/
theorem staticCall_clean {f : Callback} (noModule : ∀ m c, f ≠ .mod m c) (clean : Clean w.stack)
    (h : mountCall (moduleCalls mods) f n nvps w = .ok (code, w')) : Clean w'.stack := by
  cases f with
  | sig =>
    have h : sigCallback n w = .ok (code, w') := h
    unfold sigCallback at h
    split at h
    · obtain ⟨-, rfl⟩ := Prod.mk.inj (Except.ok.inj h)
      exact clean
    · split_ifs at h
      · obtain ⟨-, rfl⟩ := Prod.mk.inj (Except.ok.inj h)
        exact clean
      · obtain ⟨-, rfl⟩ := Prod.mk.inj (Except.ok.inj h)
        exact clean.valued (by decide) _
  | hmac => exact stackPushIfYes_clean (by decide) clean h
  | passthrough => exact stackPushIfYes_clean (by decide) clean h
  | xattr => exact stackPushIfYes_clean (by decide) clean h
  | encryptedPassthrough => exact stackPushIfYes_clean (by decide) clean h
  | fnekSig =>
    have h : fnekSigCallback n w = .ok (code, w') := h
    unfold fnekSigCallback at h
    dsimp only at h
    split at h
    · obtain ⟨-, rfl⟩ := Prod.mk.inj (Except.ok.inj h)
      exact clean
    · split_ifs at h
      · obtain ⟨-, rfl⟩ := Prod.mk.inj (Except.ok.inj h)
        exact clean
      · obtain ⟨-, rfl⟩ := Prod.mk.inj (Except.ok.inj h)
        exact clean.valued (by decide) _
  | enableFilenameCrypto =>
    have h : getEnableFilenameCrypto n w = .ok (code, w') := h
    unfold getEnableFilenameCrypto at h
    dsimp only at h
    split_ifs at h
    · split at h
      · cases h
      · obtain ⟨-, rfl⟩ := Prod.mk.inj (Except.ok.inj h)
        exact clean
      · obtain ⟨-, rfl⟩ := Prod.mk.inj (Except.ok.inj h)
        exact clean
    · obtain ⟨-, rfl⟩ := Prod.mk.inj (Except.ok.inj h)
      exact clean
    · obtain ⟨-, rfl⟩ := Prod.mk.inj (Except.ok.inj h)
      exact clean
  | keyBytes =>
    rw [(tfKeyBytes_pushes h).2]
    exact clean.valued (by decide) _
  | cipher =>
    rcases tfCipher_pushes h with ⟨-, -, kept, sublist, pushed⟩ | ⟨-, -, sublist⟩
    · rw [pushed]
      exact (clean.sublist sublist).valued (by decide) _
    · exact clean.sublist sublist
  | anotherKey =>
    have h : anotherKeyCallback nvps n w = .ok (code, w') := h
    unfold anotherKeyCallback at h
    split at h
    · cases h
    · obtain ⟨-, rfl⟩ := Prod.mk.inj (Except.ok.inj h)
      exact clean
  | mod m c => exact absurd rfl (noModule m c)

theorem Clean.append {stack : List (Option CStr)} (clean : Clean stack) {pushed : List CStr}
    (parameters : ∀ p ∈ pushed, Parameter p) : Clean (pushed.map some ++ stack) := by
  intro p among
  rcases List.mem_append.mp among with among | among
  · obtain ⟨q, inside, same⟩ := List.mem_map.mp among
    exact Option.some.inj same ▸ parameters q inside
  · exact clean p among

/-- A key of OpenSSL pushes parameters. -/
theorem sslProcess_clean {env : OpensslEnv} (pushes : env.PushesParameters) {passphrase : CStr}
    (clean : Clean w.stack) (h : sslProcess env passphrase w = .ok (code, w')) : Clean w'.stack := by
  unfold sslProcess at h
  split at h
  · cases h
  · next ctx _ =>
    split at h
    · cases h
    · next path _ _ =>
      split at h
      · obtain ⟨-, rfl⟩ := Prod.mk.inj (Except.ok.inj h)
        exact clean
      · cases h
      · next pushed processed =>
        obtain ⟨-, rfl⟩ := Prod.mk.inj (Except.ok.inj h)
        refine clean.append fun p among => ?_
        rcases pushes _ _ _ _ processed p (List.mem_reverse.mp among) with signature | limit
        · exact .inl ⟨"ecryptfs_sig=", by decide, signature⟩
        · exact .inl ⟨"max_key_bytes=", by decide, limit⟩

theorem sslPasswdFrom_clean {env : OpensslEnv} (pushes : env.PushesParameters)
    {opened : Option (ℤ × List NameValPair)} (clean : Clean w.stack)
    (h : sslPasswdFrom env opened n w = .ok (code, w')) : Clean w'.stack := by
  unfold sslPasswdFrom at h
  split at h
  · obtain ⟨-, rfl⟩ := Prod.mk.inj (Except.ok.inj h)
    exact clean
  · split_ifs at h
    · obtain ⟨-, rfl⟩ := Prod.mk.inj (Except.ok.inj h)
      exact clean
    · split at h
      · obtain ⟨-, rfl⟩ := Prod.mk.inj (Except.ok.inj h)
        exact clean
      · exact sslProcess_clean (w := clearVal w n) pushes clean h

theorem enterLinearSubgraph_clean {aliases : List CStr} (clean : Clean w.stack)
    (h : enterLinearSubgraph aliases n w = .ok (code, w')) : Clean w'.stack := by
  unfold enterLinearSubgraph at h
  split at h
  · cases h
  · split at h
    · obtain ⟨-, rfl⟩ := Prod.mk.inj (Except.ok.inj h)
      exact clean
    · obtain ⟨-, rfl⟩ := Prod.mk.inj (Except.ok.inj h)
      exact clean

/-- The functions of the OpenSSL module push parameters. -/
theorem sslCall_clean {env : OpensslEnv} (pushes : env.PushesParameters) {aliases : List CStr} {keyfile : CStr}
    {m c : ℕ} (clean : Clean w.stack) (h : (sslModule env aliases keyfile m).call c n nvps w = .ok (code, w')) :
    Clean w'.stack := by
  rcases c with _ | _ | _ | _ | _ | c
  · exact enterLinearSubgraph_clean clean h
  · have h : tfSslKeyfile n w = .ok (code, w') := h
    unfold tfSslKeyfile at h
    split at h
    · cases h
    · obtain ⟨-, rfl⟩ := Prod.mk.inj (Except.ok.inj h)
      exact clean
  · exact sslProcess_clean (w := clearVal w n) pushes clean h
  · have h : tfSslPasswdFile env n w = .ok (code, w') := h
    unfold tfSslPasswdFile at h
    dsimp only at h
    split_ifs at h
    · exact sslPasswdFrom_clean pushes clean h
    · split at h
      · cases h
      · exact sslPasswdFrom_clean pushes clean h
    · obtain ⟨-, rfl⟩ := Prod.mk.inj (Except.ok.inj h)
      exact clean
  · obtain ⟨-, rfl⟩ := Prod.mk.inj (Except.ok.inj h)
    exact clean
  · cases h

/-- So do the modules with a list of parameters. -/
theorem linearCall_clean {env : MountEnv} {aliases : List CStr} {m c : ℕ} {modAlias : CStr}
    {params : List KeyModParam} (clean : Clean w.stack)
    (h : (linearModule env aliases m modAlias params).call c n nvps w = .ok (code, w')) : Clean w'.stack := by
  rcases c with _ | _ | _ | c
  · exact enterLinearSubgraph_clean clean h
  · have h : linearSubgraphVal n w = .ok (code, w') := h
    unfold linearSubgraphVal at h
    split at h
    · obtain ⟨-, rfl⟩ := Prod.mk.inj (Except.ok.inj h)
      exact clean
    · split at h
      · cases h
      · obtain ⟨-, rfl⟩ := Prod.mk.inj (Except.ok.inj h)
        exact clean
  · have h : exitLinearSubgraph env n w = .ok (code, w') := h
    unfold exitLinearSubgraph at h
    split at h
    · cases h
    · dsimp only at h
      split_ifs at h
      · obtain ⟨-, rfl⟩ := Prod.mk.inj (Except.ok.inj h)
        exact clean
      · obtain ⟨-, rfl⟩ := Prod.mk.inj (Except.ok.inj h)
        exact clean
      · obtain ⟨-, rfl⟩ := Prod.mk.inj (Except.ok.inj h)
        exact clean.valued (by decide) _
  · cases h

/-- What `tf_passwd`, which belongs to node number 1, and `tf_pass_file` do: they leave the stack alone, or
they push the passphrase, which takes the value of the node that they need for it. -/
inductive Sourced (k : ℕ) (n : NodeId) (w : MountWorld) : ℤ → MountWorld → Prop
  | nothing {code : ℤ} {w' : MountWorld} (same : w'.stack = w.stack)
      (empty : (w.nodes n).val = none → (w'.nodes n).val = none ∧ code ≠ wrongValue) : Sourced k n w code w'
  | typed {P : CStr} {w' : MountWorld} (first : k = 1) (given : (w.nodes n).val = some P)
      (pushed : w'.stack = some P :: w.stack) (taken : (w'.nodes n).val = none) : Sourced k n w defaultTok w'
  | read {P : CStr} {w' : MountWorld} (given : (w.nodes n).val.isSome) (pushed : w'.stack = some P :: w.stack)
      (taken : (w'.nodes n).val = none) : Sourced k n w 0 w'

theorem clearVal_val (w : MountWorld) (n : NodeId) : ((clearVal w n).nodes n).val = none :=
  congrArg ParamNode.val (clearVal_self w n)

theorem tfPasswd_sourced (h : tfPasswd n w = .ok (code, w')) : Sourced 1 n w code w' := by
  unfold tfPasswd at h
  split at h
  · next absent =>
    obtain ⟨rfl, rfl⟩ := Prod.mk.inj (Except.ok.inj h)
    exact .nothing rfl fun _ => ⟨absent, by decide⟩
  · next P given =>
    obtain ⟨rfl, rfl⟩ := Prod.mk.inj (Except.ok.inj h)
    exact .typed rfl given rfl (clearVal_val _ n)

theorem passFromFile_sourced {k : ℕ} {result : ℤ × List NameValPair} (given : (w.nodes n).val.isSome) :
    Sourced k n w (passFromFile result n w).1 (passFromFile result n w).2 := by
  have empty : ∀ {code : ℤ} {w' : MountWorld}, (w.nodes n).val = none →
      (w'.nodes n).val = none ∧ code ≠ wrongValue := by
    intro code w' absent
    rw [absent] at given
    cases given
  unfold passFromFile
  split_ifs
  · exact .nothing rfl empty
  · split
    · exact .nothing rfl empty
    · exact .read given rfl (clearVal_val _ n)

theorem tfPassFile_sourced {k : ℕ} {env : MountEnv} (h : tfPassFile env n w = .ok (code, w')) :
    Sourced k n w code w' := by
  unfold tfPassFile at h
  dsimp only at h
  split_ifs at h
  · split at h
    · obtain ⟨rfl, rfl⟩ := Prod.mk.inj (Except.ok.inj h)
      exact .nothing rfl fun _ => ⟨clearVal_val w n, by decide⟩
    · next path given =>
      obtain ⟨rfl, rfl⟩ := Prod.mk.inj (Except.ok.inj h)
      exact passFromFile_sourced (given ▸ rfl)
  · split at h
    · cases h
    · next fd given =>
      obtain ⟨rfl, rfl⟩ := Prod.mk.inj (Except.ok.inj h)
      exact passFromFile_sourced (given ▸ rfl)
  · obtain ⟨rfl, rfl⟩ := Prod.mk.inj (Except.ok.inj h)
    exact .nothing rfl fun _ => ⟨clearVal_val w n, by decide⟩

/-- `tf_salt` takes the passphrase off the stack. -/
theorem tfSalt_clean {env : MountEnv} (held : Clean w.stack.tail) (h : tfSalt env n w = .ok (code, w')) :
    Clean w'.stack := by
  unfold tfSalt at h
  dsimp only at h
  split at h
  · next passwd rest top =>
    have top : w.stack = some passwd :: rest := top
    rw [top] at held
    split_ifs at h
    · obtain ⟨-, rfl⟩ := Prod.mk.inj (Except.ok.inj h)
      exact held
    · obtain ⟨-, rfl⟩ := Prod.mk.inj (Except.ok.inj h)
      exact Clean.valued held (by decide) _
  · cases h

/-! ## Turns -/

section

variable (modelled : Modelled mods) (tame : Tame (mountNodes version mods) w)

include modelled tame in
/-- A module is called from one of its own nodes, or from `select` if it is not the passphrase module. -/
theorem moduleFunc_cases {tn : TransitionNode NodeId Callback} (among : tn ∈ (w.nodes n).tl) {m c : ℕ}
    (isFunc : tn.transFunc = some (.mod m c)) : (∃ k, n = .mod m k) ∨
      (n = .select ∧ ∀ env, mods[m]? ≠ some (passphraseModule env m)) := by
  have linked := (contained_modelled modelled).toLinkedModules
  by_cases isModule : IsModule n
  · obtain ⟨m', k, rfl⟩ := isModule
    rw [(tame.modules m' k).tl, mountNodes_module] at among
    obtain ⟨tn', among', isPatched⟩ :=
      (setExit_patched .anotherKey graphDepth .select (startNodes mods)).origin among
    have func : tn'.transFunc = some (.mod m c) := by
      rcases isPatched with rfl | ⟨-, rfl⟩ <;> exact isFunc
    unfold startNodes at among'
    dsimp only at among'
    split at among'
    · next g there =>
      exact .inl ⟨k, by rw [(modelled m' g there).ownFunc among' func]⟩
    · cases among'
  · by_cases isSelect : n = .select
    · refine .inr ⟨isSelect, fun env there => ?_⟩
      subst isSelect
      rw [tame.select, mountNodes_select linked] at among
      obtain ⟨g, registered, rfl⟩ := List.mem_map.mp among
      obtain ⟨m', there'⟩ := List.getElem?_of_mem registered
      obtain ⟨rfl, -⟩ := Callback.mod.inj ((modelled m' g there').enterFunc isFunc)
      have noFunc : g.trans.transFunc = none := by
        rw [← Option.some.inj (there.symm.trans there')]
        rfl
      cases noFunc.symm.trans isFunc
    · exact absurd isFunc ((tame.others n isModule isSelect).func tn among m c)

include modelled tame in
theorem Tame.called (called : Called (mountCall (moduleCalls mods)) n nvps w w') :
    Tame (mountNodes version mods) w' := by
  obtain ⟨tn, among, f, isFunc, code, h⟩ := called
  by_cases isModuleCall : ∃ m c, f = .mod m c
  · obtain ⟨m, c, rfl⟩ := isModuleCall
    exact tame.onlyVal (moduleCall_onlyVal modelled h)
  · have noModule : ∀ m c, f ≠ .mod m c := fun m c same => isModuleCall ⟨m, c, same⟩
    have linked := (contained_modelled modelled).toLinkedModules
    have static : ¬ IsModule n := by
      rintro ⟨m, k, rfl⟩
      rw [(tame.modules m k).tl, mountNodes_module] at among
      obtain ⟨m', c, same⟩ := (exitedNodes_links linked m k).func tn among f isFunc
      exact noModule m' c same
    have noSelect : n ≠ .select := by
      rintro rfl
      rw [tame.select, mountNodes_select linked] at among
      obtain ⟨g, registered, rfl⟩ := List.mem_map.mp among
      obtain ⟨m, c, same⟩ := (linked.enter g registered).2 f isFunc
      exact noModule m c same
    exact tame.staticCall static noSelect noModule h

include tame in
/-- A call at the nodes of the passphrase and of the salt. -/
theorem passphrase_call {m k : ℕ} {env : MountEnv} (there : mods[m]? = some (passphraseModule env m))
    {tn : TransitionNode NodeId Callback} (among : tn ∈ (w.nodes (.mod m k)).tl) {start : ℤ}
    (called : transFunc (mountCall (moduleCalls mods)) start tn.transFunc (.mod m k) nvps w = .ok (code, w')) :
    (k ∈ [1, 2, 3] → Sourced k (.mod m k) w code w') ∧ (k = 4 → Clean w.stack.tail → Clean w'.stack) := by
  rw [(tame.modules m k).tl] at among
  have link := passphrase_link there among
  have call : ∀ c, moduleCalls mods m c (.mod m k) nvps w = (passphraseModule env m).call c (.mod m k) nvps w := by
    intro c
    unfold moduleCalls
    rw [there]
  rcases k with _ | _ | _ | _ | _ | k
  · exact ⟨by simp, by simp⟩
  · rw [link.1] at called
    exact ⟨fun _ => tfPasswd_sourced ((call 0).symm.trans called), by simp⟩
  · rw [link.1] at called
    exact ⟨fun _ => tfPassFile_sourced ((call 1).symm.trans called), by simp⟩
  · rw [link.1] at called
    exact ⟨fun _ => tfPassFile_sourced ((call 1).symm.trans called), by simp⟩
  · have link : tn.transFunc = some (.mod m 2) := link
    rw [link] at called
    exact ⟨by simp, fun _ held => tfSalt_clean held ((call 2).symm.trans called)⟩
  · exact link.elim

/-- Node number `k` of a passphrase module. -/
def IsPassphrase (mods : List GraphModule) (k : ℕ) (n : NodeId) : Prop :=
  ∃ m env, mods[m]? = some (passphraseModule env m) ∧ n = .mod m k

include modelled tame in
/-- At the other nodes nothing but parameters is pushed. -/
theorem called_clean (other : ∀ k ∈ [1, 2, 3, 4], ¬ IsPassphrase mods k n) (clean : Clean w.stack)
    (called : Called (mountCall (moduleCalls mods)) n nvps w w') : Clean w'.stack := by
  obtain ⟨tn, among, f, isFunc, code, h⟩ := called
  by_cases isModuleCall : ∃ m c, f = .mod m c
  · obtain ⟨m, c, rfl⟩ := isModuleCall
    have h : moduleCalls mods m c n nvps w = .ok (code, w') := h
    unfold moduleCalls at h
    split at h
    · next g there =>
      cases modelled m g there with
      | passphrase env =>
        rcases moduleFunc_cases modelled tame among isFunc with ⟨k, rfl⟩ | ⟨-, noPassphrase⟩
        · have link := passphrase_link there ((tame.modules m k).tl ▸ among)
          rcases k with _ | _ | _ | _ | _ | k
          · exact absurd (isFunc.symm.trans link) (by simp)
          · exact absurd ⟨m, env, there, rfl⟩ (other 1 (by decide))
          · exact absurd ⟨m, env, there, rfl⟩ (other 2 (by decide))
          · exact absurd ⟨m, env, there, rfl⟩ (other 3 (by decide))
          · exact absurd ⟨m, env, there, rfl⟩ (other 4 (by decide))
          · exact link.elim
        · exact absurd there (noPassphrase env)
      | openssl env aliases keyfile pushes => exact sslCall_clean pushes clean h
      | linear env aliases modAlias params => exact linearCall_clean clean h
    · cases h
  · exact staticCall_clean (fun m c same => isModuleCall ⟨m, c, same⟩) clean h

end

/-- What holds when the evaluation is at a node: the passphrase may only be on the stack at the node of the
salt, and then on top of it. -/
structure AtNode (version : UInt32) (mods : List GraphModule) (n : NodeId) (w : MountWorld) : Prop where
  tame : Tame (mountNodes version mods) w
  stack : Clean w.stack ∨ (IsPassphrase mods 4 n ∧ Clean w.stack.tail)

/-- What is left of a successful evaluation: parameters, and perhaps a passphrase that is one of the words that
lead on from its node. -/
def LeftBehind (stack : List (Option CStr)) : Prop := ∀ p, some p ∈ stack → Parameter p ∨ p ∈ passwdLabels

/-- How a turn ends. -/
def TurnEnds (version : UInt32) (mods : List GraphModule) (rc : ℤ) (next : Option NodeId) (w : MountWorld) : Prop :=
  (rc = 0 → ∀ m, next = some m → AtNode version mods m w) ∧ (rc ≠ 0 → evalResult rc = 0 → LeftBehind w.stack)

theorem Clean.leftBehind {stack : List (Option CStr)} (clean : Clean stack) : LeftBehind stack :=
  fun p among => .inl (clean p among)

theorem turnEnds_failed {rc : ℤ} {next : Option NodeId} (failed : rc < 0 ∨ rc = mountError) :
    TurnEnds version mods rc next w := by
  have noSuccess : ¬ evalResult rc = 0 := by
    rw [evalResult_eq_zero]
    rintro (rfl | ⟨positive, noError⟩)
    · rcases failed with failed | failed <;> exact absurd failed (by decide)
    · rcases failed with failed | failed
      · exact absurd positive (by omega)
      · exact noError failed
  refine ⟨fun zero => ?_, fun _ success => absurd success noSuccess⟩
  rw [zero] at noSuccess
  exact absurd rfl noSuccess

theorem turnEnds_clean {rc : ℤ} {next : Option NodeId} (tame : Tame (mountNodes version mods) w)
    (clean : Clean w.stack) : TurnEnds version mods rc next w :=
  ⟨fun _ _ _ => ⟨tame, .inl clean⟩, fun _ _ => clean.leftBehind⟩

section

variable {s t : MountState} {rc : ℤ} {next : Option NodeId} (modelled : Modelled mods)

/-- What holds at the nodes of the passphrase while they are searched for the way on: once the passphrase is
pushed, the value is gone. -/
structure AtSource (version : UInt32) (mods : List GraphModule) (n : NodeId) (w : MountWorld) : Prop where
  tame : Tame (mountNodes version mods) w
  stack : Clean w.stack ∨ ((w.nodes n).val = none ∧ Clean w.stack.tail)

theorem AtSource.held (at_ : AtSource version mods n w) : Clean w.stack.tail :=
  at_.stack.elim Clean.tail And.right

/-- The nodes of the passphrase lead to the one of the salt. -/
theorem source_next {m k i : ℕ} {env : MountEnv} (there : mods[m]? = some (passphraseModule env m))
    (inside : k ∈ [1, 2, 3]) (tame : Tame (mountNodes version mods) w) (tame' : Tame (mountNodes version mods) w')
    {tn : TransitionNode NodeId Callback} (taken : transition w (.mod m k) i = some tn) :
    nextToken w' (.mod m k) i = some (.mod m 4) := by
  have same : (w'.nodes (.mod m k)).tl = (w.nodes (.mod m k)).tl :=
    (tame'.modules m k).tl.trans (tame.modules m k).tl.symm
  have taken' : transition w' (.mod m k) i = some tn := by
    unfold transition at taken ⊢
    rw [same]
    exact taken
  have link := passphrase_link there ((tame.modules m k).tl ▸ List.mem_of_getElem? taken)
  unfold nextToken
  rw [taken']
  simp only [List.mem_cons, List.not_mem_nil, or_false] at inside
  rcases inside with rfl | rfl | rfl
  · exact link.2.1
  · exact link.2
  · exact link.2

include modelled in
theorem AtSource.called {m k : ℕ} {env : MountEnv} (there : mods[m]? = some (passphraseModule env m))
    (inside : k ∈ [1, 2, 3]) (at_ : AtSource version mods (.mod m k) w)
    (called : Called (mountCall (moduleCalls mods)) (.mod m k) nvps w w') :
    AtSource version mods (.mod m k) w' := by
  refine ⟨at_.tame.called modelled called, ?_⟩
  obtain ⟨tn, among, f, isFunc, code, h⟩ := called
  have once : transFunc (mountCall (moduleCalls mods)) nullTok tn.transFunc (.mod m k) nvps w = .ok (code, w') := by
    rw [isFunc]
    exact h
  cases (passphrase_call at_.tame there among once).1 inside with
  | nothing same empty =>
    rw [same]
    exact at_.stack.imp_right fun held => ⟨(empty held.1).1, held.2⟩
  | typed first given pushed taken =>
    have clean := at_.stack.resolve_right fun held => by cases given.symm.trans held.1
    exact .inr ⟨taken, by rw [pushed]; exact clean⟩
  | read given pushed taken =>
    have clean := at_.stack.resolve_right fun held => by
      rw [held.1] at given
      cases given
    exact .inr ⟨taken, by rw [pushed]; exact clean⟩

include modelled in
/-- **The turn at a node of the passphrase** goes on to the salt, or it asks again without a passphrase on
the stack; it may end with the passphrase there only if this is one of the words that lead on. -/
theorem source_turn {m k : ℕ} {env : MountEnv} (there : mods[m]? = some (passphraseModule env m))
    (inside : k ∈ [1, 2, 3]) (tame : Tame (mountNodes version mods) s.world) (clean : Clean s.world.stack)
    (h : doTransition (mountCall (moduleCalls mods)) (.mod m k) s = .ok (rc, next, t)) :
    TurnEnds version mods rc next t.world := by
  have kept : ∀ w w', AtSource version mods (.mod m k) w →
      Called (mountCall (moduleCalls mods)) (.mod m k) s.nvps w w' → AtSource version mods (.mod m k) w' :=
    fun w w' at_ called => at_.called modelled there inside called
  have toSalt : ∀ {w}, AtSource version mods (.mod m k) w → AtNode version mods (.mod m 4) w :=
    fun at_ => ⟨at_.tame, .inr ⟨⟨m, env, there, rfl⟩, at_.held⟩⟩
  have onward : ∀ {w m'}, AtSource version mods (.mod m k) w → m' = .mod m 4 →
      TurnEnds version mods 0 (some m') w := by
    rintro w m' at_ rfl
    exact ⟨fun _ m' same => Option.some.inj same ▸ toSalt at_, fun nonzero => absurd rfl nonzero⟩
  have ended := doTransition_ended kept ⟨tame, .inl clean⟩ h
  generalize t.world = v at ended ⊢
  have small : k ∈ [1, 2, 3, 4] := List.mem_append_left [4] inside
  cases ended with
  | failed code => exact turnEnds_failed code
  | leaf inQ leaf => exact absurd ((inQ.tame.modules m k).tl.symm.trans leaf) (passphrase_notLeaf there small)
  | @byValue i tn code w w' last some_ same =>
    have among := List.mem_of_getElem? last.taken
    have at' : AtSource version mods (.mod m k) v := transFunc_kept kept last.before last.taken last.called
    rw [source_next there inside last.before.tame at'.tame last.taken]
    change TurnEnds version mods code _ v
    have clean := last.before.stack.resolve_right fun held => by
      rw [same, held.1] at some_
      cases some_
    cases (passphrase_call last.before.tame there among last.called).1 inside with
    | nothing unchanged => exact turnEnds_clean at'.tame (unchanged ▸ clean)
    | typed first given pushed taken =>
      subst first
      obtain ⟨-, -, l, isLabel, labelled⟩ := passphrase_link there ((last.before.tame.modules m 1).tl ▸ among)
      refine ⟨fun zero => absurd zero (by decide), fun _ _ p among => ?_⟩
      rw [pushed] at among
      rcases List.mem_cons.mp among with here | among
      · obtain rfl := Option.some.inj (here.trans (given.symm.trans (same.symm.trans labelled)))
        exact .inr isLabel
      · exact .inl (clean p among)
    | read given pushed taken => exact onward at' rfl
  | named last leads next =>
    have at' := transFunc_kept kept last.before last.taken last.called
    exact onward at' (Option.some.inj (next.symm.trans
      (source_next there inside last.before.tame at'.tame last.taken)))
  | byDefault last default next =>
    have at' := transFunc_kept kept last.before last.taken last.called
    exact onward at' (Option.some.inj (next.symm.trans
      (source_next there inside last.before.tame at'.tame last.taken)))
  | again last =>
    have at' := transFunc_kept kept last.before last.taken last.called
    have sourced := (passphrase_call last.before.tame there (List.mem_of_getElem? last.taken) last.called).1 inside
    generalize isWrong : wrongValue = code at sourced
    cases sourced with
    | nothing unchanged empty =>
      have clean := last.before.stack.resolve_right fun held => (empty held.1).2 isWrong.symm
      exact turnEnds_clean at'.tame (unchanged ▸ clean)
    | typed => exact absurd isWrong (by decide)
    | read => exact absurd isWrong (by decide)

include modelled in
/-- **The turn at the salt** takes the passphrase off the stack. -/
theorem salt_turn {m : ℕ} {env : MountEnv} (there : mods[m]? = some (passphraseModule env m))
    (tame : Tame (mountNodes version mods) s.world) (held : Clean s.world.stack.tail)
    (h : doTransition (mountCall (moduleCalls mods)) (.mod m 4) s = .ok (rc, next, t)) :
    TurnEnds version mods rc next t.world := by
  have taken : ∀ {w w' : MountWorld} {i : ℕ} {tn start code}, LastCall (mountCall (moduleCalls mods))
      (fun w => Tame (mountNodes version mods) w ∧ Clean w.stack.tail) s.nvps (.mod m 4) i tn start code w w' →
      Clean w'.stack := fun last => (passphrase_call last.before.1 there (List.mem_of_getElem? last.taken)
        last.called).2 rfl last.before.2
  have kept : ∀ w w', (Tame (mountNodes version mods) w ∧ Clean w.stack.tail) →
      Called (mountCall (moduleCalls mods)) (.mod m 4) s.nvps w w' →
      Tame (mountNodes version mods) w' ∧ Clean w'.stack.tail := by
    rintro w w' ⟨tame, held⟩ called
    refine ⟨tame.called modelled called, ?_⟩
    obtain ⟨tn, among, f, isFunc, code, h⟩ := called
    have once : transFunc (mountCall (moduleCalls mods)) nullTok tn.transFunc (.mod m 4) s.nvps w =
        .ok (code, w') := by
      rw [isFunc]
      exact h
    exact ((passphrase_call tame there among once).2 rfl held).tail
  have clean : ∀ {w w' : MountWorld} {i : ℕ} {tn start code rc next}, LastCall (mountCall (moduleCalls mods))
      (fun w => Tame (mountNodes version mods) w ∧ Clean w.stack.tail) s.nvps (.mod m 4) i tn start code w w' →
      TurnEnds version mods rc next w' :=
    fun last => turnEnds_clean (transFunc_kept kept last.before last.taken last.called).1 (taken last)
  have ended := doTransition_ended kept ⟨tame, held⟩ h
  generalize t.world = v at ended ⊢
  cases ended with
  | failed code => exact turnEnds_failed code
  | leaf inQ leaf =>
    exact absurd ((inQ.1.modules m 4).tl.symm.trans leaf) (passphrase_notLeaf there (by decide))
  | byValue last => exact clean last
  | named last => exact clean last
  | byDefault last => exact clean last
  | again last => exact clean last

include modelled in
/-- **A turn** keeps passphrases off the stack. -/
theorem turnEnds_of_atNode (at_ : AtNode version mods n s.world)
    (h : doTransition (mountCall (moduleCalls mods)) n s = .ok (rc, next, t)) :
    TurnEnds version mods rc next t.world := by
  by_cases source : ∃ k ∈ [1, 2, 3], IsPassphrase mods k n
  · obtain ⟨k, inside, m, env, there, rfl⟩ := source
    have clean : Clean s.world.stack := at_.stack.resolve_right (by
      rintro ⟨⟨m', env', -, same⟩, -⟩
      obtain ⟨-, rfl⟩ := NodeId.mod.inj same
      exact absurd inside (by decide))
    exact source_turn modelled there inside at_.tame clean h
  · by_cases salt : IsPassphrase mods 4 n
    · obtain ⟨m, env, there, rfl⟩ := salt
      exact salt_turn modelled there at_.tame (at_.stack.elim Clean.tail And.right) h
    · have clean := at_.stack.resolve_right fun both => salt both.1
      have other : ∀ k ∈ [1, 2, 3, 4], ¬ IsPassphrase mods k n := by
        intro k inside isNode
        rcases List.mem_append.mp (show k ∈ [1, 2, 3] ++ [4] from inside) with inside | last
        · exact source ⟨k, inside, isNode⟩
        · exact salt (List.mem_singleton.mp last ▸ isNode)
      obtain ⟨-, ⟨tame', clean'⟩, -⟩ := doTransition_inv
        (Q := fun w => Tame (mountNodes version mods) w ∧ Clean w.stack)
        (fun w w' ⟨tame, clean⟩ called =>
          ⟨tame.called modelled called, called_clean modelled tame other clean called⟩) ⟨at_.tame, clean⟩ h
      exact turnEnds_clean tame' clean'

/-! ## Whole evaluations -/

theorem Tame.retrieve {u : MountState} (tame : Tame g u.world) (m : NodeId) : Tame g (retrieve m u).world := by
  obtain ⟨v, set, fields⟩ := (retrieveVal_spec (u.node m) u.nvps).fields
  refine tame.setNode ?_
  rw [fields]
  exact ⟨rfl, rfl, rfl⟩

/-- Looking for values leaves the key modules alone. -/
theorem Tame.allocated (tame : Tame g s.world) (h : allocAndGetVal n s = .ok (rc, t)) : Tame g t.world :=
  allocAndGetVal_inv (P := fun u : MountState => Tame g u.world)
    ⟨fun _ _ tame => tame.setNode ⟨rfl, rfl, rfl⟩, fun _ _ tame => tame⟩ tame (fun _ => tame.retrieve n)
    (fun _ _ m tame _ => tame.retrieve m) h

/-- At the node of the salt there is always a value. -/
theorem salt_allocated {m : ℕ} {env : MountEnv} (there : mods[m]? = some (passphraseModule env m))
    (tame : Tame (mountNodes version mods) s.world) (h : allocAndGetVal (.mod m 4) s = .ok (rc, t)) : rc = 0 := by
  obtain ⟨default, implicit⟩ := @salt_default version mods m env there
  rw [← (tame.modules m 4).default] at default
  rw [← (tame.modules m 4).implicit] at implicit
  have found : (retrieveVal (s.node (.mod m 4)) s.nvps).1 = true := by
    unfold retrieveVal EvalState.node
    split
    · rfl
    · rw [default]
      rfl
  obtain ⟨v, set, fields⟩ := (retrieveVal_spec (s.node (.mod m 4)) s.nvps).fields
  have implicit' : (retrieveVal (s.node (.mod m 4)) s.nvps).2.1.flags.allowImplicitTransition = false := by
    rw [fields]
    exact implicit
  unfold allocAndGetVal at h
  split_ifs at h
  · exact (Prod.mk.inj (Except.ok.inj h)).1.symm
  · generalize retrieveVal (s.node (.mod m 4)) s.nvps = result at h found implicit'
    obtain ⟨retrieved, node, nvps⟩ := result
    dsimp only at h found implicit'
    rw [if_pos ⟨found, fun both => by rw [implicit'] at both; cases both.1⟩] at h
    exact (Prod.mk.inj (Except.ok.inj h)).1.symm

/-- What holds of an evaluation at any time. -/
def StaysClean (version : UInt32) (mods : List GraphModule) : Config NodeId Callback MountExt → Prop
  | .at n s => AtNode version mods n s.world
  | .done rc _ s => evalResult rc = 0 → LeftBehind s.world.stack
  | .stopped _ => True

include modelled in
theorem staysClean_step {c c' : Config NodeId Callback MountExt} (clean : StaysClean version mods c)
    (h : evalStep (mountCall (moduleCalls mods)) c = some c') : StaysClean version mods c' := by
  cases c with
  | done rc last s => cases h
  | stopped why => cases h
  | «at» n s =>
    have allocated : ∀ {rc t}, allocAndGetVal n s = .ok (rc, t) → AtNode version mods n t.world := by
      intro rc t allocated
      refine ⟨clean.tame.allocated allocated, ?_⟩
      rw [(allocAndGetVal_links allocated).2.1]
      exact clean.stack
    cases c' with
    | stopped why => trivial
    | «at» m s' =>
      obtain ⟨t, allocated', transitioned⟩ := evalStep_at h
      exact (turnEnds_of_atNode modelled (allocated allocated') transitioned).1 rfl m rfl
    | done rc last s' =>
      obtain ⟨rfl, nonzero, allocated' | ⟨t, next, allocated', transitioned⟩⟩ := evalStep_done h
      · intro success
        have at_ := allocated allocated'
        refine (at_.stack.resolve_right ?_).leftBehind
        rintro ⟨⟨m, env, there, rfl⟩, -⟩
        exact nonzero (salt_allocated there clean.tame allocated')
      · exact (turnEnds_of_atNode modelled (allocated allocated') transitioned).2 nonzero

theorem KeyLinks.static {f : Callback} {tl : List (TransitionNode NodeId Callback)} (links : KeyLinks f tl)
    (noModule : ∀ m c, f ≠ .mod m c) : StaticLinks tl := by
  refine ⟨fun tn among x leads => ?_, fun tn among m c isFunc => ?_⟩
  · rintro ⟨m, k, rfl⟩
    rcases (links tn among).2 with next | next <;> exact absurd (leads.symm.trans next) (by simp)
  · exact noModule m c (Option.some.inj ((links tn among).1.symm.trans isFunc))

theorem BehindLinks.static {tl : List (TransitionNode NodeId Callback)} (links : BehindLinks tl) :
    StaticLinks tl := by
  refine ⟨fun tn among x leads => ?_, fun tn among m c isFunc => ?_⟩
  · rintro ⟨m, k, rfl⟩
    exact absurd (links.next tn among _ leads) (by simp [behindNodes])
  · exact absurd (links.func tn among _ isFunc) (by simp [behindCallbacks])

/-- The graph when an evaluation starts. -/
theorem tame_start (linked : LinkedModules mods) {w : MountWorld} (start : w.nodes = mountNodes version mods) :
    Tame (mountNodes version mods) w := by
  have unchosen : Unchosen w.links := unchosen_start linked start
  refine ⟨fun m k => start ▸ .refl _, start ▸ rfl, fun n static noSelect => ?_⟩
  cases n with
  | select => exact absurd rfl noSelect
  | mod m k => exact absurd ⟨m, k, rfl⟩ static
  | root => exact unchosen.root.static (by simp)
  | anotherKey => exact unchosen.anotherKey.static (by simp)
  | cipher =>
    rw [show (w.nodes .cipher).tl = cipherTransitions from unchosen.cipher]
    refine ⟨fun tn among x leads => ?_, fun tn among m c => ?_⟩
    · obtain ⟨name, -, rfl⟩ := List.mem_map.mp among
      obtain rfl := Option.some.inj leads
      rintro ⟨m, k, same⟩
      cases same
    · obtain ⟨name, -, rfl⟩ := List.mem_map.mp among
      simp
  | keyBytes =>
    rw [show (w.nodes .keyBytes).tl = [] from unchosen.keyBytes]
    exact ⟨by simp, by simp⟩
  | dummy =>
    rw [start, mountNodes_static linked (by decide) (by decide) (by simp)]
    exact ⟨by simp [staticNode], by simp [staticNode]⟩
  | _ => exact (unchosen.behind _ (by decide)).static

include modelled in
/-- **No passphrase is left on the stack** when an evaluation succeeds, whatever the options, the rc file and
the answers of the user, unless it is one of the words that lead on from its node. -/
theorem leftBehind_of_success {rcFile opts : List NameValPair} {inputs : List (Except {rc : ℤ // rc < 0} CStr)}
    {last : NodeId} (reached : Reaches (evalStep (mountCall (moduleCalls mods)))
      (processStart version mods rcFile opts inputs) (.done rc last s)) (success : evalResult rc = 0) :
    LeftBehind s.world.stack := by
  have start : StaysClean version mods (processStart version mods rcFile opts inputs) := by
    unfold processStart evalStart
    split
    · trivial
    · refine ⟨tame_start (contained_modelled modelled).toLinkedModules rfl, .inl fun p among => ?_⟩
      cases List.mem_singleton.mp among
  exact Machine.invariant (fun a b clean stepped => staysClean_step modelled clean stepped) start reached success

end

end Ecryptfs
