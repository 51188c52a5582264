import Ecryptfs.Graph.Calls
import Ecryptfs.Mount.CipherLimits
import Ecryptfs.Mount.OpensslModule
import Ecryptfs.Mount.Termination

/-!
# The choice of the cipher

The text that `tf_ecryptfs_cipher` and `tf_ecryptfs_key_bytes` push is whatever their nodes hold, and an
option named like a cipher or a number calls them without a look at it.  Their codes never lead on from
there, though, so that an evaluation only comes to the end by the values of both nodes: `choosesOnce`
says for all key modules that leave the transitions of the graph alone that it has then pushed one
cipher of the table and one of its sizes.
-/

namespace Ecryptfs

open StateTransition

variable {mods : List GraphModule} {version : UInt32} {n : NodeId} {code : ℤ}

/-! ## Pushed parameters -/

/-- The parameters that calls at the node `n` pushed, which is the cipher node or the key-bytes node:
their callbacks push one when they return zero (`tfCipher_pushes`, `tfKeyBytes_pushes`). -/
def pushedBy (n : NodeId) (calls : List (Call NodeId Callback)) : List (Option CStr) :=
  calls.filterMap fun c => if c.node = n ∧ c.code = 0 then c.stack.head? else none

theorem pushedBy_append (n : NodeId) (calls calls' : List (Call NodeId Callback)) :
    pushedBy n (calls ++ calls') = pushedBy n calls ++ pushedBy n calls' :=
  List.filterMap_append ..

theorem pushedBy_other {c : Call NodeId Callback} (other : c.node ≠ n) : pushedBy n [c] = [] := by
  unfold pushedBy
  exact List.filterMap_cons_none (if_neg fun both => other both.1)

theorem pushedBy_failed {c : Call NodeId Callback} (failed : c.code ≠ 0) : pushedBy n [c] = [] := by
  unfold pushedBy
  exact List.filterMap_cons_none (if_neg fun both => failed both.2)

theorem pushedBy_pushed {f : Callback} {v : Option CStr} {rest : List (Option CStr)} :
    pushedBy n [⟨n, f, 0, v :: rest⟩] = [v] := by
  unfold pushedBy
  exact List.filterMap_cons_some (if_pos ⟨rfl, rfl⟩)

theorem keyBytesLimit_error {name : String} {v : CStr} {rc : ℤ}
    (failed : keyBytesLimit name v = .error rc) : rc < 0 := by
  unfold keyBytesLimit at failed
  split_ifs at failed
  · split at failed
    · cases failed
    · split at failed
      · cases failed
        decide
      · cases failed

/-- The loop over the stack takes entries off, and its code is zero or negative. -/
theorem scanKeyBytes_sublist {stack : List (Option CStr)} {min max : ℤ} {scan : KeyBytesScan}
    (h : scanKeyBytes stack min max = .ok scan) : scan.stack.Sublist stack ∧ (scan.rc = 0 ∨ scan.rc < 0) := by
  fun_induction scanKeyBytes stack min max generalizing scan with
  | case1 =>
    obtain rfl := Except.ok.inj h
    exact ⟨.refl _, .inl rfl⟩
  | case2 v rest min max rc failed =>
    obtain rfl := Except.ok.inj h
    exact ⟨.refl _, .inr (keyBytesLimit_error failed)⟩
  | case3 v rest min max rc failed =>
    obtain rfl := Except.ok.inj h
    exact ⟨.refl _, .inr (keyBytesLimit_error failed)⟩
  | case4 v rest min max noMin noMax ih =>
    obtain ⟨scan', scanned, rfl⟩ := map_eq_ok h
    obtain ⟨sublist, rc⟩ := ih scanned
    exact ⟨sublist.cons_cons v, rc⟩
  | case5 => cases h
  | case6 v min max newMax newMin limit isMin isMax u rest ih =>
    obtain ⟨scan', scanned, rfl⟩ := map_eq_ok h
    obtain ⟨sublist, rc⟩ := ih scanned
    exact ⟨(sublist.cons_cons u).cons v, rc⟩

/-- What `tf_ecryptfs_cipher` pushes: a parameter when it succeeds, which clears the value of its node,
and nothing when it fails. -/
theorem tfCipher_pushes {w w' : MountWorld} (h : tfCipher n w = .ok (code, w')) :
    (code = 0 ∧ (w'.nodes n).val = none ∧ ∃ kept, kept.Sublist w.stack ∧
      w'.stack = param "ecryptfs_cipher=" (printed (w.nodes n).val) :: kept) ∨
      (code < 0 ∧ w'.nodes = w.nodes ∧ w'.stack.Sublist w.stack) := by
  unfold tfCipher at h
  split at h
  · cases h
  · next scan scanned =>
    obtain ⟨sublist, rc⟩ := scanKeyBytes_sublist scanned
    dsimp only at h
    split_ifs at h with failed
    · obtain ⟨rfl, rfl⟩ := Prod.mk.inj (Except.ok.inj h)
      exact .inr ⟨rc.resolve_left failed, rfl, sublist⟩
    · split at h
      · cases h
      · next filled =>
        obtain ⟨rfl, rfl⟩ := Prod.mk.inj (Except.ok.inj h)
        refine .inr ⟨?_, rfl, sublist⟩
        unfold initKeyBytesNode at filled
        dsimp only at filled
        split at filled
        · cases filled
        · split_ifs at filled
          · cases filled
            decide
          · cases filled
      · obtain ⟨rfl, rfl⟩ := Prod.mk.inj (Except.ok.inj h)
        refine .inl ⟨rfl, ?_, scan.stack, sublist, rfl⟩
        exact congrArg ParamNode.val (clearVal_self _ n)

/-- What `tf_ecryptfs_key_bytes` pushes. -/
theorem tfKeyBytes_pushes {w w' : MountWorld} (h : tfKeyBytes n w = .ok (code, w')) :
    code = 0 ∧ w'.stack = param "ecryptfs_key_bytes=" (printed (w.nodes n).val) :: w.stack := by
  obtain ⟨rfl, rfl⟩ := Prod.mk.inj (Except.ok.inj h)
  exact ⟨rfl, rfl⟩

/-! ## Transitions -/

abbrev Links := NodeId → List (TransitionNode NodeId Callback)

/-- The transitions of the cipher node, one for each cipher. -/
def cipherTransitions : List (TransitionNode NodeId Callback) :=
  cipherDescriptors.map fun name => ⟨some (lit name), some .keyBytes, some .cipher⟩

/-- The nodes behind the choice. -/
def behindNodes : List NodeId :=
  [.versionSupport, .passthrough, .hmac, .xattr, .encryptedPassthrough, .fnekSig,
    .enableFilenameCrypto, .end_]

def behindCallbacks : List Callback :=
  [.passthrough, .hmac, .xattr, .encryptedPassthrough, .fnekSig, .enableFilenameCrypto]

/-- The transitions of a node behind the choice. -/
structure BehindLinks (tl : List (TransitionNode NodeId Callback)) : Prop where
  next : ∀ tn ∈ tl, ∀ x, tn.nextToken = some x → x ∈ behindNodes
  func : ∀ tn ∈ tl, ∀ f, tn.transFunc = some f → f ∈ behindCallbacks

/-- The transitions of a node of the graph in front of the cipher, with their function. -/
def KeyLinks (f : Callback) (tl : List (TransitionNode NodeId Callback)) : Prop :=
  ∀ tn ∈ tl, tn.transFunc = some f ∧ (tn.nextToken = some .cipher ∨ tn.nextToken = some .select)

/-- The transitions of the graph as long as the cipher is not chosen. -/
structure Unchosen (links : Links) : Prop where
  modules : ∀ m k, ModuleLinks (links (.mod m k))
  select : ModuleLinks (links .select)
  root : KeyLinks .sig (links .root)
  anotherKey : KeyLinks .anotherKey (links .anotherKey)
  cipher : links .cipher = cipherTransitions
  keyBytes : links .keyBytes = []
  behind : ∀ n ∈ behindNodes, BehindLinks (links n)

/-- The nodes in front of the cipher. -/
def Early (n : NodeId) : Prop := IsModule n ∨ n ∈ [NodeId.root, .select, .anotherKey]

/-- The key modules leave the transitions of the graph alone, and theirs lead on to themselves or out. -/
structure Contained (mods : List GraphModule) : Prop extends LinkedModules mods where
  calls : ∀ m c n nvps w code w', moduleCalls mods m c n nvps w = .ok (code, w') →
    (∀ m k, ModuleLinks (w.links (.mod m k))) →
      (∀ m k, ModuleLinks (w'.links (.mod m k))) ∧ ∀ n, ¬ IsModule n → w'.links n = w.links n

theorem KeyLinks.redirect {f : Callback} {tl : List (TransitionNode NodeId Callback)} {x : Option NodeId}
    (links : KeyLinks f tl) (target : x = some .cipher ∨ x = some .select) :
    KeyLinks f (tl.modifyHead fun tn => { tn with nextToken := x }) := by
  cases tl with
  | nil => exact links
  | cons head tail =>
    rw [List.modifyHead_cons]
    intro tn among
    rcases List.mem_cons.mp among with rfl | among
    · exact ⟨(links head List.mem_cons_self).1, target⟩
    · exact links tn (List.mem_cons_of_mem head among)

theorem setFirstNext_links (w : MountWorld) (n : NodeId) (x : Option NodeId) :
    (setFirstNext w n x).links =
      Function.update w.links n ((w.links n).modifyHead fun tn => { tn with nextToken := x }) := by
  funext k
  by_cases here : k = n
  · subst here
    rw [Function.update_self]
    exact congrArg ParamNode.tl (w.nodes_setNode_self k _)
  · rw [Function.update_of_ne here]
    exact congrArg ParamNode.tl (w.nodes_setNode_of_ne _ here)

/-- A node in front of the cipher is redirected. -/
theorem Unchosen.redirect {w : MountWorld} {x : Option NodeId} (unchosen : Unchosen w.links)
    (here : n = .root ∨ n = .anotherKey) (target : x = some .cipher ∨ x = some .select) :
    Unchosen (setFirstNext w n x).links := by
  rw [setFirstNext_links]
  have other : ∀ k, ¬ (k = .root ∨ k = .anotherKey) → Function.update w.links n
      ((w.links n).modifyHead fun tn => { tn with nextToken := x }) k = w.links k := by
    intro k outside
    apply Function.update_of_ne
    rintro rfl
    exact outside here
  have keyLinks : ∀ k f, KeyLinks f (w.links k) → KeyLinks f (Function.update w.links n
      ((w.links n).modifyHead fun tn => { tn with nextToken := x }) k) := by
    intro k f links
    by_cases same : k = n
    · subst same
      rw [Function.update_self]
      exact links.redirect target
    · rw [Function.update_of_ne same]
      exact links
  refine ⟨fun m k => ?_, ?_, keyLinks .root _ unchosen.root, keyLinks .anotherKey _ unchosen.anotherKey,
    ?_, ?_, fun k behind => ?_⟩
  · rw [other _ (by simp)]
    exact unchosen.modules m k
  · rw [other _ (by decide)]
    exact unchosen.select
  · rw [other _ (by decide)]
    exact unchosen.cipher
  · rw [other _ (by decide)]
    exact unchosen.keyBytes
  · rw [other k ?_]
    · exact unchosen.behind k behind
    · rintro (rfl | rfl) <;> exact absurd behind (by decide)

/-- **In front of the cipher** no callback changes the transitions of the cipher and behind it. -/
theorem Unchosen.called {w w' : MountWorld} {nvps : List NameValPair} (contained : Contained mods)
    (early : Early n) (unchosen : Unchosen w.links)
    (called : Called (mountCall (moduleCalls mods)) n nvps w w') : Unchosen w'.links := by
  obtain ⟨tn, among, f, isFunc, code, h⟩ := called
  have ofModule : ModuleLinks (w.links n) → Unchosen w'.links := by
    intro links
    obtain ⟨m, c, rfl⟩ := links.func tn among f isFunc
    obtain ⟨modules, kept⟩ := contained.calls m c n nvps w code w' h unchosen.modules
    refine ⟨modules, ?_, ?_, ?_, ?_, ?_, fun k behind => ?_⟩
    · rw [kept .select (by rintro ⟨m, k, same⟩; cases same)]
      exact unchosen.select
    · rw [kept .root (by rintro ⟨m, k, same⟩; cases same)]
      exact unchosen.root
    · rw [kept .anotherKey (by rintro ⟨m, k, same⟩; cases same)]
      exact unchosen.anotherKey
    · rw [kept .cipher (by rintro ⟨m, k, same⟩; cases same)]
      exact unchosen.cipher
    · rw [kept .keyBytes (by rintro ⟨m, k, same⟩; cases same)]
      exact unchosen.keyBytes
    · rw [kept k ?_]
      · exact unchosen.behind k behind
      · rintro ⟨m, j, rfl⟩
        simp [behindNodes] at behind
  rcases early with ⟨m, k, rfl⟩ | inside
  · exact ofModule (unchosen.modules m k)
  · simp only [List.mem_cons, List.not_mem_nil, or_false] at inside
    rcases inside with rfl | rfl | rfl
    · obtain rfl := Option.some.inj ((unchosen.root tn among).1.symm.trans isFunc)
      have h : sigCallback .root w = .ok (code, w') := h
      have redirected := unchosen.redirect (.inl rfl) (x := some .select) (.inr rfl)
      unfold sigCallback at h
      split at h
      · obtain ⟨-, rfl⟩ := Prod.mk.inj (Except.ok.inj h)
        exact redirected
      · split_ifs at h
        · obtain ⟨-, rfl⟩ := Prod.mk.inj (Except.ok.inj h)
          exact redirected
        · obtain ⟨-, rfl⟩ := Prod.mk.inj (Except.ok.inj h)
          exact unchosen
    · exact ofModule unchosen.select
    · obtain rfl := Option.some.inj ((unchosen.anotherKey tn among).1.symm.trans isFunc)
      have h : anotherKeyCallback nvps .anotherKey w = .ok (code, w') := h
      unfold anotherKeyCallback at h
      split at h
      · cases h
      · next found _ =>
        obtain ⟨-, rfl⟩ := Prod.mk.inj (Except.ok.inj h)
        refine unchosen.redirect (.inr rfl) ?_
        cases found
        · exact .inl rfl
        · exact .inr rfl

/-- Where the nodes in front of the cipher lead. -/
theorem Unchosen.next {links : Links} (unchosen : Unchosen links) (early : Early n)
    {tn : TransitionNode NodeId Callback} (among : tn ∈ links n) {x : NodeId}
    (leads : tn.nextToken = some x) : Early x ∨ x = .cipher := by
  have ofModule : ModuleLinks (links n) → Early x ∨ x = .cipher := by
    intro module
    rcases module.next tn among x leads with rfl | isModule
    · exact .inl (.inr (by decide))
    · exact .inl (.inl isModule)
  have ofKey : ∀ f, KeyLinks f (links n) → Early x ∨ x = .cipher := by
    intro f key
    rcases (key tn among).2 with same | same
    · exact .inr (Option.some.inj (leads.symm.trans same))
    · obtain rfl := Option.some.inj (leads.symm.trans same)
      exact .inl (.inr (by decide))
  rcases early with ⟨m, k, rfl⟩ | inside
  · exact ofModule (unchosen.modules m k)
  · simp only [List.mem_cons, List.not_mem_nil, or_false] at inside
    rcases inside with rfl | rfl | rfl
    · exact ofKey _ unchosen.root
    · exact ofModule unchosen.select
    · exact ofKey _ unchosen.anotherKey

/-! ## Turns -/

abbrev RecordedWorld := World NodeId Callback (MountExt × List (Call NodeId Callback))

abbrev RecordedState := EvalState NodeId Callback (MountExt × List (Call NodeId Callback))

/-- The callbacks of the mount graph, with their calls written down. -/
abbrev mountRecorded (mods : List GraphModule) :
    Callbacks NodeId Callback (MountExt × List (Call NodeId Callback)) :=
  recorded (mountCall (moduleCalls mods))

variable {w w' : RecordedWorld} {s t s' : RecordedState} {m : NodeId} {nvps : List NameValPair}

/-- A recorded call at a node. -/
theorem Called.split (h : Called (mountRecorded mods) n nvps w w') : ∃ tn ∈ w.links n, ∃ f code v,
    tn.transFunc = some f ∧ mountCall (moduleCalls mods) f n nvps (w.mapExt Prod.fst) = .ok (code, v) ∧
      w'.nodes = v.nodes ∧ w'.calls = w.calls ++ [⟨n, f, code, v.stack⟩] := by
  obtain ⟨tn, among, f, isFunc, code, h⟩ := h
  obtain ⟨v, called, rfl⟩ := recorded_ok h
  exact ⟨tn, among, f, code, v, isFunc, called, rfl, rfl⟩

theorem links_of_nodes {v : MountWorld} (nodes : w'.nodes = v.nodes) : w'.links = v.links := by
  unfold World.links
  rw [nodes]

/-- What is pushed by calls at the two nodes. -/
def Pushed (ciphers sizes : List (Option CStr)) (w : RecordedWorld) : Prop :=
  pushedBy .cipher w.calls = ciphers ∧ pushedBy .keyBytes w.calls = sizes

/-- Calls at other nodes do not count. -/
theorem Pushed.elsewhere {ciphers sizes : List (Option CStr)} {f : Callback} {stack : List (Option CStr)}
    (pushed : Pushed ciphers sizes w) (other : n ≠ .cipher ∧ n ≠ .keyBytes)
    (calls : w'.calls = w.calls ++ [⟨n, f, code, stack⟩]) : Pushed ciphers sizes w' := by
  refine ⟨?_, ?_⟩
  · rw [calls, pushedBy_append, pushedBy_other other.1, List.append_nil, pushed.1]
  · rw [calls, pushedBy_append, pushedBy_other other.2, List.append_nil, pushed.2]

theorem Early.other (early : Early n) : n ≠ .cipher ∧ n ≠ .keyBytes := by
  rcases early with ⟨m, k, rfl⟩ | inside
  · exact ⟨by simp, by simp⟩
  · revert n
    decide

/-- **A turn in front of the cipher** leads to such a node or to the cipher, and pushes none. -/
theorem early_turn (contained : Contained mods) (early : Early n) (unchosen : Unchosen s.world.links)
    (pushed : Pushed [] [] s.world) (h : doTransition (mountRecorded mods) n s = .ok (0, some m, s')) :
    Unchosen s'.world.links ∧ Pushed [] [] s'.world ∧ (Early m ∨ m = .cipher) := by
  obtain ⟨-, ⟨unchosen', pushed'⟩, leads⟩ := doTransition_inv
    (Q := fun w : RecordedWorld => Unchosen w.links ∧ Pushed [] [] w) (by
      rintro w w' ⟨unchosen, pushed⟩ called
      obtain ⟨tn, among, f, code, v, isFunc, ok, nodes, calls⟩ := called.split
      refine ⟨?_, pushed.elsewhere early.other calls⟩
      rw [links_of_nodes nodes]
      exact Unchosen.called (w := w.mapExt Prod.fst) contained early unchosen
        ⟨tn, among, f, isFunc, code, ok⟩) ⟨unchosen, pushed⟩ h
  refine ⟨unchosen', pushed', ?_⟩
  rcases leads m rfl with rfl | ⟨tn, among, next_⟩
  · exact .inl early
  · exact unchosen'.next early among next_

/-- The key-bytes node offers sizes of the cipher `C`. -/
def OffersSizes (C : String) (tl : List (TransitionNode NodeId Callback)) : Prop :=
  ∀ tn ∈ tl, ∃ e ∈ supportedKeyBytes, e.1 = C ∧
    tn = ⟨some (decimalText e.2), some .versionSupport, some .keyBytes⟩

theorem tfCipher_links {w w' : MountWorld} (h : tfCipher .cipher w = .ok (code, w')) :
    w'.links .cipher = w.links .cipher := by
  unfold tfCipher at h
  split at h
  · cases h
  · dsimp only at h
    split_ifs at h
    · obtain ⟨-, rfl⟩ := Prod.mk.inj (Except.ok.inj h)
      rfl
    · split at h
      · cases h
      · obtain ⟨-, rfl⟩ := Prod.mk.inj (Except.ok.inj h)
        rfl
      · obtain ⟨-, rfl⟩ := Prod.mk.inj (Except.ok.inj h)
        rfl

/-- The cipher node while it is searched for the way on: nothing is pushed yet, or its value is gone. -/
structure AtCipher (w : RecordedWorld) : Prop where
  cipher : w.links .cipher = cipherTransitions
  behind : ∀ n ∈ behindNodes, BehindLinks (w.links n)
  fresh : (w.links .keyBytes = [] ∧ Pushed [] [] w) ∨ (w.nodes .cipher).val = none

/-- A call at the cipher node. -/
theorem AtCipher.split (at_ : AtCipher w) (called : Called (mountRecorded mods) .cipher nvps w w') :
    ∃ code v, tfCipher .cipher (w.mapExt Prod.fst) = .ok (code, v) ∧ w'.nodes = v.nodes ∧
      w'.calls = w.calls ++ [⟨.cipher, .cipher, code, v.stack⟩] := by
  obtain ⟨tn, among, f, code, v, isFunc, ok, nodes, calls⟩ := called.split
  have table : ∀ tn ∈ cipherTransitions, tn.transFunc = some .cipher := by decide
  rw [at_.cipher] at among
  obtain rfl := Option.some.inj ((table tn among).symm.trans isFunc)
  exact ⟨code, v, ok, nodes, calls⟩

theorem AtCipher.called (at_ : AtCipher w) (called : Called (mountRecorded mods) .cipher nvps w w') :
    AtCipher w' := by
  obtain ⟨code, v, ok, nodes, calls⟩ := at_.split called
  have links := links_of_nodes nodes
  refine ⟨?_, fun k behind => ?_, ?_⟩
  · rw [links, tfCipher_links ok]
    exact at_.cipher
  · have other : k ≠ .cipher ∧ k ≠ .keyBytes := by
      revert k
      decide
    have h : mountCall (moduleCalls mods) .cipher .cipher nvps (w.mapExt Prod.fst) = .ok (code, v) := ok
    have kept : v.nodes k = w.nodes k :=
      mountCall_elsewhere (by exact trivial) ⟨by decide, by decide⟩ other.1 other.2 h
    rw [links]
    unfold World.links
    rw [kept]
    exact at_.behind k behind
  · rcases tfCipher_pushes ok with ⟨-, cleared, -⟩ | ⟨failed, kept, -⟩
    · rw [nodes]
      exact .inr cleared
    · refine at_.fresh.imp (fun fresh => ⟨?_, ?_⟩) fun gone => ?_
      · rw [links]
        unfold World.links
        rw [kept]
        exact fresh.1
      · refine ⟨?_, ?_⟩
        · rw [calls, pushedBy_append, pushedBy_failed failed.ne, List.append_nil, fresh.2.1]
        · rw [calls, pushedBy_append, pushedBy_other (by simp), List.append_nil, fresh.2.2]
      · rw [nodes, kept]
        exact gone

/-- **The turn at the cipher** pushes one cipher of the table and offers its sizes. -/
theorem cipher_turn (unchosen : Unchosen s.world.links) (pushed : Pushed [] [] s.world)
    (h : doTransition (mountRecorded mods) .cipher s = .ok (0, some m, s')) :
    m = .keyBytes ∧ ∃ C ∈ cipherDescriptors, OffersSizes C (s'.world.links .keyBytes) ∧
      (∀ n ∈ behindNodes, BehindLinks (s'.world.links n)) ∧
      Pushed [param "ecryptfs_cipher=" (lit C)] [] s'.world := by
  have mute : ∀ w, AtCipher w → Mute (mountRecorded mods) s.nvps .cipher w := by
    intro w at_ tn among
    have table : ∀ tn ∈ cipherTransitions,
        tn.val ≠ some (lit "default") ∧ tn.transFunc = some .cipher := by decide
    have among' : tn ∈ cipherTransitions := at_.cipher ▸ among
    refine ⟨(table tn among').1, .cipher, (table tn among').2, fun code w' h => ?_⟩
    obtain ⟨v, called, -⟩ := recorded_ok h
    rcases tfCipher_pushes called with ⟨rfl, -⟩ | ⟨failed, -⟩
    · decide
    · unfold mountError defaultTok nullTok
      omega
  obtain ⟨w, i, tn, at_, followed, some_, same⟩ := doTransition_byValue (Q := AtCipher)
    (fun w w' at_ called => at_.called called) mute
    ⟨unchosen.cipher, unchosen.behind, .inl ⟨unchosen.keyBytes, pushed⟩⟩ h
  have among : tn ∈ cipherTransitions := at_.cipher ▸ List.mem_of_getElem? followed.taken
  obtain ⟨C, inTable, rfl⟩ := List.mem_map.mp among
  have called : Called (mountRecorded mods) .cipher s.nvps w s'.world :=
    ⟨_, List.mem_of_getElem? followed.taken, .cipher, rfl, 0, followed.called⟩
  have after := at_.called called
  have next_ : nextToken s'.world .cipher i = some .keyBytes := by
    have taken := followed.taken
    change (w.links .cipher)[i]? = _ at taken
    change (s'.world.links .cipher)[i]?.bind _ = _
    rw [after.cipher, ← at_.cipher, taken]
    rfl
  refine ⟨(Option.some.inj (next_.symm.trans followed.next)).symm, C, inTable, ?_⟩
  obtain ⟨empty, pushed⟩ := at_.fresh.resolve_right (by rw [← same]; simp)
  obtain ⟨v, ok, whole⟩ := recorded_ok followed.called
  obtain ⟨scan, -, -, stack, sizes⟩ := tfCipher_success (w := w.mapExt Prod.fst) same.symm empty ok
  have calls : s'.world.calls = w.calls ++ [⟨.cipher, .cipher, 0, v.stack⟩] := by
    rw [whole]
    rfl
  refine ⟨fun tn offered => ?_, after.behind, ?_, ?_⟩
  · have offered : tn ∈ (v.nodes .keyBytes).tl := by
      rw [whole] at offered
      exact offered
    rw [sizes] at offered
    obtain ⟨e, inTable, rfl⟩ := List.mem_map.mp offered
    obtain ⟨between, named⟩ := List.mem_filter.mp inTable
    exact ⟨e, (List.mem_filter.mp between).1, lit_inj.mp (of_decide_eq_true named), rfl⟩
  · rw [calls, pushedBy_append, pushed.1, stack, List.nil_append]
    exact pushedBy_pushed
  · rw [calls, pushedBy_append, pushedBy_other (by simp), pushed.2]
    rfl

/-! ## The size of the key -/

/-- The key-bytes node while it is searched for the way on: nothing is pushed yet, or its value is
gone. -/
structure AtKeyBytes (C : String) (ciphers : List (Option CStr)) (w : RecordedWorld) : Prop where
  sizes : OffersSizes C (w.links .keyBytes)
  behind : ∀ n ∈ behindNodes, BehindLinks (w.links n)
  ciphers : pushedBy .cipher w.calls = ciphers
  fresh : pushedBy .keyBytes w.calls = [] ∨ (w.nodes .keyBytes).val = none

variable {C : String} {ciphers : List (Option CStr)}

theorem clearVal_links (w : MountWorld) (n : NodeId) : (clearVal w n).links = w.links := by
  funext k
  unfold World.links
  by_cases here : k = n
  · rw [here, clearVal_self]
  · rw [clearVal_other here]

theorem tfKeyBytes_links {w w' : MountWorld} (h : tfKeyBytes n w = .ok (code, w')) :
    w'.links = w.links ∧ (w'.nodes n).val = none := by
  obtain ⟨-, rfl⟩ := Prod.mk.inj (Except.ok.inj h)
  exact ⟨clearVal_links _ n, congrArg ParamNode.val (clearVal_self _ n)⟩

theorem AtKeyBytes.called (at_ : AtKeyBytes C ciphers w)
    (called : Called (mountRecorded mods) .keyBytes nvps w w') : AtKeyBytes C ciphers w' := by
  obtain ⟨tn, among, f, code, v, isFunc, ok, nodes, calls⟩ := called.split
  obtain ⟨e, -, -, rfl⟩ := at_.sizes tn among
  obtain rfl := Option.some.inj isFunc
  obtain ⟨kept, cleared⟩ := tfKeyBytes_links ok
  have links : w'.links = w.links := (links_of_nodes nodes).trans kept
  refine ⟨?_, ?_, ?_, ?_⟩
  · rw [links]
    exact at_.sizes
  · rw [links]
    exact at_.behind
  · rw [calls, pushedBy_append, pushedBy_other (by simp), List.append_nil, at_.ciphers]
  · rw [nodes]
    exact .inr cleared

/-- **The turn at the key-bytes node** pushes one of the sizes that are offered. -/
theorem keyBytes_turn (at_ : AtKeyBytes C ciphers s.world)
    (h : doTransition (mountRecorded mods) .keyBytes s = .ok (0, some m, s')) :
    m = .versionSupport ∧ (∀ n ∈ behindNodes, BehindLinks (s'.world.links n)) ∧
      ∃ K, (C, K) ∈ supportedKeyBytes ∧
        Pushed ciphers [param "ecryptfs_key_bytes=" (decimalText K)] s'.world := by
  have noDefault : ∀ e ∈ supportedKeyBytes, decimalText e.2 ≠ lit "default" := by decide
  have mute : ∀ w, AtKeyBytes C ciphers w → Mute (mountRecorded mods) s.nvps .keyBytes w := by
    intro w at_ tn among
    obtain ⟨e, inTable, -, rfl⟩ := at_.sizes tn among
    refine ⟨fun same => noDefault e inTable (Option.some.inj same), .keyBytes, rfl, fun code w' h => ?_⟩
    obtain ⟨v, called, -⟩ := recorded_ok h
    obtain ⟨rfl, -⟩ := tfKeyBytes_pushes called
    decide
  obtain ⟨w, i, tn, at_, followed, some_, same⟩ := doTransition_byValue (Q := AtKeyBytes C ciphers)
    (fun w w' at_ called => at_.called called) mute at_ h
  obtain ⟨e, inTable, rfl, rfl⟩ := at_.sizes tn (List.mem_of_getElem? followed.taken)
  have called : mountRecorded mods .keyBytes .keyBytes s.nvps w = .ok (0, s'.world) := followed.called
  obtain ⟨v, ok, whole⟩ := recorded_ok called
  obtain ⟨-, stack⟩ := tfKeyBytes_pushes ok
  have after := at_.called ⟨_, List.mem_of_getElem? followed.taken, .keyBytes, rfl, 0, called⟩
  have next_ : nextToken s'.world .keyBytes i = some .versionSupport := by
    have kept := congrFun (tfKeyBytes_links ok).1 .keyBytes
    have taken := followed.taken
    change (w.links .keyBytes)[i]? = _ at taken
    rw [whole]
    change (v.links .keyBytes)[i]?.bind _ = _
    rw [kept]
    change (w.links .keyBytes)[i]?.bind _ = _
    rw [taken]
    rfl
  have none_ := at_.fresh.resolve_right (by rw [← same]; simp)
  have calls : s'.world.calls = w.calls ++ [⟨.keyBytes, .keyBytes, 0, v.stack⟩] := by
    rw [whole]
    rfl
  have printed_ : printed (w.nodes .keyBytes).val = decimalText e.2 := by
    rw [← same]
    rfl
  refine ⟨(Option.some.inj (next_.symm.trans followed.next)).symm, after.behind, e.2, inTable,
    after.ciphers, ?_⟩
  rw [calls, pushedBy_append, none_, stack, List.nil_append, ← printed_]
  exact pushedBy_pushed

/-! ## Behind the choice -/

theorem behind_other (behind : n ∈ behindNodes) : n ≠ .cipher ∧ n ≠ .keyBytes := by
  revert n
  decide

theorem behind_isPart : IsPart behindNodes behindCallbacks :=
  ⟨by decide, by decide, by decide, fun m k => by simp [behindNodes], by decide,
    fun m c => by simp [behindCallbacks], by decide⟩

/-- The callbacks behind the choice lead on behind it. -/
theorem behind_called {w w' : MountWorld} (behind : n ∈ behindNodes)
    (links : ∀ k ∈ behindNodes, BehindLinks (w.links k))
    {tn : TransitionNode NodeId Callback} (among : tn ∈ w.links n) {f : Callback}
    (isFunc : tn.transFunc = some f) (h : mountCall (moduleCalls mods) f n nvps w = .ok (code, w')) :
    ∀ k ∈ behindNodes, BehindLinks (w'.links k) := by
  have links' := behind_isPart.called (fun k inside => ⟨(links k inside).next, (links k inside).func⟩)
    behind ((links n behind).func tn among f isFunc) h
  exact fun k inside => ⟨(links' k inside).next, (links' k inside).func⟩

/-- **A turn behind the choice** stays there. -/
theorem behind_turn {ciphers sizes : List (Option CStr)} (behind : n ∈ behindNodes)
    (links : ∀ k ∈ behindNodes, BehindLinks (s.world.links k)) (pushed : Pushed ciphers sizes s.world)
    (h : doTransition (mountRecorded mods) n s = .ok (0, some m, s')) :
    m ∈ behindNodes ∧ (∀ k ∈ behindNodes, BehindLinks (s'.world.links k)) ∧
      Pushed ciphers sizes s'.world := by
  obtain ⟨-, ⟨links', pushed'⟩, leads⟩ := doTransition_inv
    (Q := fun w : RecordedWorld => (∀ k ∈ behindNodes, BehindLinks (w.links k)) ∧ Pushed ciphers sizes w)
    (by
      rintro w w' ⟨links, pushed⟩ called
      obtain ⟨tn, among, f, code, v, isFunc, ok, nodes, calls⟩ := called.split
      refine ⟨?_, pushed.elsewhere (behind_other behind) calls⟩
      rw [links_of_nodes nodes]
      exact behind_called (w := w.mapExt Prod.fst) behind links among isFunc ok) ⟨links, pushed⟩ h
  refine ⟨?_, links', pushed'⟩
  rcases leads m rfl with rfl | ⟨tn, among, next_⟩
  · exact behind
  · exact (links' n behind).next tn among m next_

/-! ## The modules -/

theorem linearCall_onlyVal {env : MountEnv} {aliases : List CStr} {m c : ℕ} {modAlias : CStr}
    {params : List KeyModParam} {nvps : List NameValPair} {w w' : MountWorld}
    (h : (linearModule env aliases m modAlias params).call c n nvps w = .ok (code, w')) :
    OnlyVal n w w' := by
  rcases c with _ | _ | _ | c
  · exact enterLinearSubgraph_onlyVal h
  · exact linearSubgraphVal_onlyVal h
  · exact exitLinearSubgraph_onlyVal h
  · cases h

theorem OnlyVal.links {w w' : MountWorld} (only : OnlyVal n w w') : w'.links = w.links := by
  obtain ⟨v, nodes⟩ := only
  funext k
  unfold World.links
  rw [nodes, Function.update_apply]
  split_ifs with here
  · rw [here]
  · rfl

/-- A key module, as module number `m`: the one for passphrases, the one for OpenSSL, which pushes parameters of
the mount only, or one with a list of parameters. -/
inductive ModelledModule (m : ℕ) : GraphModule → Prop
  | passphrase (env : MountEnv) : ModelledModule m (passphraseModule env m)
  | openssl (env : OpensslEnv) (aliases : List CStr) (keyfile : CStr) (pushes : env.PushesParameters) :
    ModelledModule m (sslModule env aliases keyfile m)
  | linear (env : MountEnv) (aliases : List CStr) (modAlias : CStr) (params : List KeyModParam) :
    ModelledModule m (linearModule env aliases m modAlias params)

/-- The registered modules are key modules. -/
def Modelled (mods : List GraphModule) : Prop := ∀ m g, mods[m]? = some g → ModelledModule m g

section

variable {m : ℕ} {g : GraphModule} (module : ModelledModule m g)

include module

theorem ModelledModule.enter : ∃ k, g.trans.nextToken = some (.mod m k) := by
  cases module with
  | passphrase env => exact ⟨0, rfl⟩
  | openssl env aliases keyfile pushes => exact ⟨0, rfl⟩
  | linear env aliases modAlias params => exact ⟨0, rfl⟩

theorem ModelledModule.enterFunc {f : Callback} (isFunc : g.trans.transFunc = some f) : f = .mod m 0 := by
  cases module with
  | passphrase env => cases isFunc
  | openssl env aliases keyfile pushes => exact (Option.some.inj isFunc).symm
  | linear env aliases modAlias params => exact (Option.some.inj isFunc).symm

theorem ModelledModule.links (k : ℕ) : ModuleLinks (g.nodes k).tl := by
  cases module with
  | passphrase env => exact passphraseNode_links m k
  | openssl env aliases keyfile pushes => exact (sslNode_module keyfile m k).links
  | linear env aliases modAlias params => exact linearModule_links env aliases m modAlias params k

/-- The nodes of a key module call its own functions. -/
theorem ModelledModule.ownFunc {k m' c : ℕ} {tn : TransitionNode NodeId Callback} (among : tn ∈ (g.nodes k).tl)
    (isFunc : tn.transFunc = some (.mod m' c)) : m' = m := by
  cases module with
  | passphrase env =>
    have own : ∀ tn ∈ (passphraseNode m k).tl, ∀ m' c, tn.transFunc = some (.mod m' c) → m' = m := by
      rcases k with _ | _ | _ | _ | _ | k <;> simp +contextual [passphraseNode]
    exact own tn among m' c isFunc
  | openssl env aliases keyfile pushes =>
    have own : ∀ tn ∈ (sslNode keyfile m k).tl, ∀ m' c, tn.transFunc = some (.mod m' c) → m' = m := by
      rcases k with _ | _ | _ | _ | _ | _ | k <;> simp +contextual [sslNode]
    exact own tn among m' c isFunc
  | linear env aliases modAlias params =>
    have own : ∀ tn ∈ ((linearModule env aliases m modAlias params).nodes k).tl, ∀ m' c,
        tn.transFunc = some (.mod m' c) → m' = m := by
      unfold linearModule
      dsimp only
      split
      · simp +contextual
      · split_ifs <;> simp +contextual
    exact own tn among m' c isFunc

/-- The functions of a key module only change the value of their node. -/
theorem ModelledModule.onlyVal {c : ℕ} {nvps : List NameValPair} {w w' : MountWorld} {code : ℤ}
    (h : g.call c n nvps w = .ok (code, w')) : OnlyVal n w w' := by
  cases module with
  | passphrase env =>
    -- what the module calls does not depend on its number
    exact passphraseCall_onlyVal (show (passphraseModule env 0).call c n nvps w = .ok (code, w') from h)
  | openssl env aliases keyfile pushes => exact sslCall_onlyVal h
  | linear env aliases modAlias params => exact linearCall_onlyVal h

end

theorem moduleCall_onlyVal (modelled : Modelled mods) {m c : ℕ} {nvps : List NameValPair} {w w' : MountWorld}
    {code : ℤ} (h : moduleCalls mods m c n nvps w = .ok (code, w')) : OnlyVal n w w' := by
  unfold moduleCalls at h
  split at h
  · next g there => exact (modelled m g there).onlyVal h
  · cases h

/-- **Key modules leave the graph alone.** -/
theorem contained_modelled (modelled : Modelled mods) : Contained mods := by
  refine ⟨⟨fun g registered => ?_, fun g registered k => ?_⟩, fun m c n nvps w code w' h modules => ?_⟩
  · obtain ⟨m, there⟩ := List.getElem?_of_mem registered
    obtain ⟨k, leads⟩ := (modelled m g there).enter
    exact ⟨⟨_, leads, m, k, rfl⟩, fun f isFunc => ⟨m, 0, (modelled m g there).enterFunc isFunc⟩⟩
  · obtain ⟨m, there⟩ := List.getElem?_of_mem registered
    exact (modelled m g there).links k
  · rw [(moduleCall_onlyVal modelled h).links]
    exact ⟨modules, fun k _ => rfl⟩

/-! ## Whole evaluations -/

/-- How far the choice has come. -/
inductive Choice : NodeId → RecordedWorld → Prop
  | early {n : NodeId} {w : RecordedWorld} (early : Early n ∨ n = .cipher) (unchosen : Unchosen w.links)
      (pushed : Pushed [] [] w) : Choice n w
  | cipher {w : RecordedWorld} {C : String} (inTable : C ∈ cipherDescriptors)
      (sizes : OffersSizes C (w.links .keyBytes)) (behind : ∀ n ∈ behindNodes, BehindLinks (w.links n))
      (pushed : Pushed [param "ecryptfs_cipher=" (lit C)] [] w) : Choice .keyBytes w
  | both {n : NodeId} {w : RecordedWorld} {C : String} {K : ℕ} (inside : n ∈ behindNodes)
      (inTable : C ∈ cipherDescriptors) (supported : (C, K) ∈ supportedKeyBytes)
      (behind : ∀ n ∈ behindNodes, BehindLinks (w.links n))
      (pushed : Pushed [param "ecryptfs_cipher=" (lit C)]
        [param "ecryptfs_key_bytes=" (decimalText K)] w) : Choice n w

theorem Choice.step (contained : Contained mods) (choice : Choice n s.world)
    (h : evalStep (mountRecorded mods) (.at n s) = some (.at m s')) : Choice m s'.world := by
  rcases evalStep_cases h with ⟨why, same⟩ | ⟨rc, t, same⟩ | ⟨t, m', s'', same, -, allocated, transitioned⟩
  · cases same
  · cases same
  · obtain ⟨rfl, rfl⟩ := Config.at.inj same
    obtain ⟨links, -, ext⟩ := allocAndGetVal_links allocated
    have calls : t.world.calls = s.world.calls := congrArg Prod.snd ext
    cases choice with
    | early here unchosen pushed =>
      rw [← links] at unchosen
      unfold Pushed at pushed
      rw [← calls] at pushed
      rcases here with early | rfl
      · obtain ⟨unchosen', pushed', next_⟩ := early_turn contained early unchosen pushed transitioned
        exact .early next_ unchosen' pushed'
      · obtain ⟨rfl, C, inTable, sizes, behind, pushed'⟩ := cipher_turn unchosen pushed transitioned
        exact .cipher inTable sizes behind pushed'
    | cipher inTable sizes behind pushed =>
      rw [← links] at sizes behind
      unfold Pushed at pushed
      rw [← calls] at pushed
      obtain ⟨rfl, behind', K, supported, pushed'⟩ :=
        keyBytes_turn ⟨sizes, behind, pushed.1, .inl pushed.2⟩ transitioned
      exact .both (by decide) inTable supported behind' pushed'
    | both inside inTable supported behind pushed =>
      rw [← links] at behind
      unfold Pushed at pushed
      rw [← calls] at pushed
      obtain ⟨inside', behind', pushed'⟩ := behind_turn inside behind pushed transitioned
      exact .both inside' inTable supported behind' pushed'

theorem behind_start {nodes : NodeId → MountNode} (static : Static nodes) (inside : n ∈ behindNodes) :
    BehindLinks (fillInVersionSupport version nodes n).tl := by
  have links : LinksWithin behindNodes behindCallbacks (fillInVersionSupport version nodes n).tl :=
    behind_isPart.start static inside (behind_other inside).1
  exact ⟨links.next, links.func⟩

theorem unchosen_start (linked : LinkedModules mods) {w : MountWorld}
    (start : w.nodes = mountNodes version mods) : Unchosen w.links := by
  have static := static_exited linked
  have same : ∀ n, n ∉ versioned → n ≠ .select → (∀ m k, n ≠ .mod m k) →
      w.links n = (staticNode n).tl := by
    intro n other noSelect noModule
    unfold World.links
    rw [start, mountNodes_static linked other noSelect noModule]
  refine ⟨fun m k => ?_, ?_, ?_, ?_, ?_, ?_, fun n inside => ?_⟩
  · unfold World.links
    rw [start, mountNodes_module]
    exact exitedNodes_links linked m k
  · unfold World.links
    rw [start, mountNodes_select linked]
    refine ⟨fun tn among x leads => ?_, fun tn among f isFunc => ?_⟩
    · obtain ⟨g, registered, rfl⟩ := List.mem_map.mp among
      obtain ⟨⟨y, next_, isModule⟩, -⟩ := linked.enter g registered
      obtain rfl := Option.some.inj (next_.symm.trans leads)
      exact .inr isModule
    · obtain ⟨g, registered, rfl⟩ := List.mem_map.mp among
      exact (linked.enter g registered).2 f isFunc
  · rw [same .root (by decide) (by decide) (by simp)]
    exact List.forall_mem_singleton.mpr ⟨rfl, .inl rfl⟩
  · rw [same .anotherKey (by decide) (by decide) (by simp)]
    exact List.forall_mem_singleton.mpr ⟨rfl, .inl rfl⟩
  · unfold World.links
    rw [start]
    change (fillInVersionSupport version (exitedNodes mods) .cipher).tl = _
    rw [fillInVersionSupport_cipher, static.same .cipher (by decide) (by simp)]
    rfl
  · exact same .keyBytes (by decide) (by decide) (by simp)
  · unfold World.links
    rw [start]
    exact behind_start static inside

/-- One cipher of the table is pushed, and one of the sizes that it supports. -/
def ChoosesOnce (calls : List (Call NodeId Callback)) : Prop :=
  ∃ C ∈ cipherDescriptors, ∃ K, (C, K) ∈ supportedKeyBytes ∧
    pushedBy .cipher calls = [param "ecryptfs_cipher=" (lit C)] ∧
    pushedBy .keyBytes calls = [param "ecryptfs_key_bytes=" (decimalText K)]

/-- **One cipher and one size.**  For every version mask, all key modules that leave the transitions of
the graph alone, every list and all answers: an evaluation that reaches the end of the graph has its
calls, and by these the cipher node pushed one cipher of the table and the key-bytes node one size that
this cipher supports. -/
theorem choosesOnce (contained : Contained mods) (version : UInt32) (nvps : List NameValPair)
    (inputs : List (Except {rc : ℤ // rc < 0} CStr)) (s : MountState)
    (reached : Reaches (evalStep (mountCall (moduleCalls mods)))
      (evalStart .root (mountState version mods nvps inputs)) (.at .end_ s)) :
    (∃ calls, Records (mountCall (moduleCalls mods))
      (evalStart .root (mountState version mods nvps inputs)) calls (.at .end_ s)) ∧
    ∀ calls, Records (mountCall (moduleCalls mods))
        (evalStart .root (mountState version mods nvps inputs)) calls (.at .end_ s) →
      ChoosesOnce calls := by
  refine ⟨reaches_iff_records.mp reached, fun calls records => ?_⟩
  have invariant : ∀ n t, ((Config.at .end_ s).withCalls calls : Config _ _ _) = .at n t →
      Choice n t.world := by
    refine Machine.invariant (I := fun c : Config NodeId Callback (MountExt × List (Call NodeId Callback)) =>
      ∀ n t, c = .at n t → Choice n t.world) ?_ ?_ records
    · rintro a b holds stepped n t rfl
      cases a with
      | «at» m u => exact (holds m u rfl).step contained stepped
      | done rc last u => cases stepped
      | stopped why => cases stepped
    · intro n t same
      unfold evalStart at same
      split at same
      · cases same
      · obtain ⟨rfl, rfl⟩ := Config.at.inj same
        exact .early (.inl (.inr (by decide))) (unchosen_start (w := ⟨mountNodes version mods, [none], {}⟩)
          contained.toLinkedModules rfl) ⟨rfl, rfl⟩
  have choice := invariant .end_ _ rfl
  cases choice with
  | early here unchosen pushed =>
    rcases here with (⟨m, k, same⟩ | inside) | same
    · cases same
    · exact absurd inside (by decide)
    · cases same
  | both inside inTable supported behind pushed => exact ⟨_, inTable, _, supported, pushed.1, pushed.2⟩

/-- The key modules of a system in which no key of OpenSSL can be read. -/
def bothModules : List GraphModule :=
  [passphraseModule plainEnv 0, sslModule ⟨fun _ _ _ => .error (.rc 1), fun _ => none, fun _ => none⟩
    [lit "passphrase", lit "openssl"] (lit "/home/u/.ecryptfs/pki/openssl/key.pem") 1]

theorem modelled_both : Modelled bothModules := by
  intro m g there
  rcases m with _ | _ | m
  · exact Option.some.inj there ▸ .passphrase plainEnv
  · exact Option.some.inj there ▸ .openssl _ _ _ fun found path passphrase pushed failed => by cases failed
  · cases there

set_option maxRecDepth 4000 in
/-- A mount with all signatures given chooses `aes` with 16 bytes. -/
theorem choosesOnce_fnek : ∃ s calls,
    Records (mountCall (moduleCalls bothModules)) (evalStart .root (mountState 0x101 bothModules fnekOptions []))
      calls (.at .end_ s) ∧ ChoosesOnce calls := by
  have contained := contained_modelled modelled_both
  -- the run stays on the nodes that belong to no key module
  have static := static_exited contained.toLinkedModules
  have nodes : exitedNodes bothModules = fun n => match n with
      | .mod m k => exitedNodes bothModules (.mod m k)
      | .select => exitedNodes bothModules .select
      | n => staticNode n := by
    funext n
    cases n with
    | select => rfl
    | mod m k => rfl
    | _ => exact static.same _ (by decide) (by simp)
  have run : ∃ s : MountState, Reaches (evalStep (mountCall (moduleCalls bothModules)))
      (evalStart .root (mountState 0x101 bothModules fnekOptions [])) (.at .end_ s) := by
    have start : mountState 0x101 bothModules fnekOptions [] =
        { world := ⟨fillInVersionSupport 0x101 (exitedNodes bothModules), [none], {}⟩
          nvps := fnekOptions, verbosity := 0, hasGetString := true, inputs := [] } := rfl
    rw [start, nodes]
    exact ⟨_, .head rfl (.head rfl (.head rfl (.head rfl (.head rfl .refl))))⟩
  obtain ⟨s, reached⟩ := run
  obtain ⟨⟨calls, records⟩, chosen⟩ := choosesOnce contained 0x101 fnekOptions [] s reached
  exact ⟨s, calls, records, chosen calls records⟩

end Ecryptfs
