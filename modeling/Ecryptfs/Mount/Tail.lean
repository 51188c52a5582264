import Ecryptfs.Graph.Queue
import Ecryptfs.Mount.Callbacks

/-!
# From the cipher to the end

The part of the mount graph behind the keys, evaluated on a list that gives a cipher, one of its key
sizes, and answers to some of the questions for the features.  The walk follows the chain of the
features as it was built for the version mask; without a feature `versionSupport` has no next node,
and the evaluation fails there.
-/

namespace Ecryptfs

variable {names : List CStr} {q : CStr → List (Option CStr)} {w : MountWorld}
  {mods : List GraphModule}

/-! ## Single turns -/

/-- A turn at a node that only has a default transition. -/
theorem walks_only {n m : NodeId} {x : Option NodeId} {f : Option Callback} {v w' : MountWorld}
    {q' : CStr → List (Option CStr)} {code : ℤ} (receives : Receives names n w q v q')
    (only : (v.nodes n).tl = [defaultTransition x f]) (unnamed : lit "default" ∉ names)
    (other : (v.nodes n).val ≠ some (lit "default"))
    (success : 0 ≤ code ∧ code ≠ mountError ∧ code ≠ wrongValue)
    (called : ∀ nvps, Offers names q' nvps →
      transFunc (mountCall (moduleCalls mods)) nullTok f n nvps v = .ok (code, w'))
    (next : nextToken w' n 0 = some m) :
    Walks (mountCall (moduleCalls mods)) names n w q m w' q' := by
  have first : transition v n 0 = some (defaultTransition x f) := transition_only only
  refine walks_default 0 _ code receives (fun u among => ?_) rfl (fun i low => absurd low (Nat.not_lt_zero i))
    (by decide) success.2.2
    fun nvps offers => ⟨first, called nvps offers, ⟨success.1, success.2.1⟩, next⟩
  rw [only, List.mem_singleton] at among
  rw [among]
  exact ⟨_, rfl, unnamed, other.symm⟩

/-- The evaluation ends at a node that only has a default transition. -/
theorem ends_only {n : NodeId} {x : Option NodeId} {f : Option Callback} {v w' : MountWorld}
    {q' : CStr → List (Option CStr)} {rc : ℤ} (receives : Receives names n w q v q')
    (only : (v.nodes n).tl = [defaultTransition x f]) (unnamed : lit "default" ∉ names)
    (other : (v.nodes n).val ≠ some (lit "default"))
    (halts : ∀ nvps, Offers names q' nvps → Halts (mountCall (moduleCalls mods)) n nvps v w' 0
      (defaultTransition x f) rc) :
    Ends (mountCall (moduleCalls mods)) names n w q rc w' := by
  have first : transition v n 0 = some (defaultTransition x f) := transition_only only
  refine ends_default 0 _ receives (fun u among => ?_) first rfl
    (fun i low => absurd low (Nat.not_lt_zero i)) (by decide) halts
  rw [only, List.mem_singleton] at among
  rw [among]
  exact ⟨_, rfl, unnamed, other.symm⟩

/-- Clearing the value of a node gives the node back. -/
theorem clearVal_setNode {n : NodeId} {node : MountNode}
    (back : ({ node with val := none } : MountNode) = w.nodes n) :
    clearVal (w.setNode n node) n = w := by
  unfold clearVal World.modify World.setNode
  simp only [Function.update_self, Function.update_idem, back, Function.update_eq_self]

theorem cleared_eq {node : MountNode} (open_ : node.val = none) :
    ({ node with val := none } : MountNode) = node := by
  rw [← open_]

theorem clearVal_other {n k : NodeId} (other : k ≠ n) : (clearVal w n).nodes k = w.nodes k :=
  Function.update_of_ne other _ _

/-- The list gives a node with one option the value `x`, or it has none for it. -/
theorem receives_option {n : NodeId} {option : CStr} {x : Option CStr} (plain : Plain (w.nodes n))
    (options : (w.nodes n).mntOptNames = [option]) (noDefault : (w.nodes n).defaultVal = none)
    (given : q option = (x.map some).toList) (real : x ≠ some nullText) :
    Receives names n w q (w.setNode n { w.nodes n with val := x }) (Function.update q option []) := by
  cases x with
  | none =>
    have nothing := cleared_eq plain.open_
    have empty : Function.update q option [] = q := by
      rw [Function.update_eq_self_iff]
      exact given.symm
    rw [nothing, World.setNode_self, empty]
    refine receives_nothing ⟨plain, ?_, .inl noDefault⟩
    rw [options]
    exact List.forall_mem_singleton.mpr given
  | some v => exact receives_entry plain options given fun same => real (congrArg some same)

/-! ## Features -/

/-- A node that asks for a feature and leads to `next`. -/
structure IsFeature (node : MountNode) (option : String) (f : Callback) (next : NodeId) : Prop where
  plain : Plain node
  unset : node.flags.parameterSet = false
  options : node.mntOptNames = [lit option]
  default : node.defaultVal = none ∨ node.defaultVal = some (lit "n")
  only : node.tl = [defaultTransition (some next) (some f)]

def answerText (yes : Bool) : CStr := if yes then lit "y" else lit "n"

/-- The entries of the list for an option that may be answered by yes or no. -/
def answerQueue (answer : Option Bool) : List (Option CStr) :=
  (answer.map fun yes => some (answerText yes)).toList

/-- The world after a feature was answered. -/
def answered (answer : Option Bool) (param : String) (w : MountWorld) : MountWorld :=
  if answer = some true then w.push (some (lit param)) else w

theorem stackPushIfYes_answered {n : NodeId} {param : String} {answer : Option Bool}
    {x : Option CStr} (open_ : (w.nodes n).val = none)
    (unset : (w.nodes n).flags.parameterSet = false)
    (value : (answer = some true ∧ x = some (lit "y")) ∨
      (answer ≠ some true ∧ (x = none ∨ x = some (lit "n")))) :
    stackPushIfYes param n (w.setNode n { w.nodes n with val := x }) =
      .ok (0, answered answer param w) := by
  have cleared : clearVal (w.setNode n { w.nodes n with val := x }) n = w :=
    clearVal_setNode (cleared_eq open_)
  have node := w.nodes_setNode_self n { w.nodes n with val := x }
  unfold stackPushIfYes answered
  simp only [node, unset]
  rcases value with ⟨yes, rfl⟩ | ⟨no, rfl | rfl⟩
  · have isOne : isYes (some (lit "y")) 0 = 1 := by decide
    rw [isOne, if_pos (.inl rfl), if_pos yes]
    exact congrArg (fun w : MountWorld => Except.ok (0, w.push (some (lit param)))) cleared
  · have isZero : isYes none 0 = 0 := by decide
    rw [isZero, if_neg (by decide), if_neg (by decide), if_neg no, cleared]
  · have isZero : isYes (some (lit "n")) 0 = 0 := by decide
    rw [isZero, if_neg (by decide), if_neg (by decide), if_neg no, cleared]

/-- A turn at a feature. -/
theorem feature_walks {n next : NodeId} {f : Callback} {option param : String} {answer : Option Bool}
    (feature : IsFeature (w.nodes n) option f next)
    (callback : ∀ nvps u, mountCall (moduleCalls mods) f n nvps u = stackPushIfYes param n u)
    (unnamed : lit "default" ∉ names) (asked : q (lit option) = answerQueue answer) :
    Walks (mountCall (moduleCalls mods)) names n w q next (answered answer param w)
      (Function.update q (lit option) []) := by
  obtain ⟨x, receives, value⟩ : ∃ x, Receives names n w q (w.setNode n { w.nodes n with val := x })
      (Function.update q (lit option) []) ∧ ((answer = some true ∧ x = some (lit "y")) ∨
        (answer ≠ some true ∧ (x = none ∨ x = some (lit "n")))) := by
    cases answer with
    | none =>
      have empty : Function.update q (lit option) [] = q := by
        rw [Function.update_eq_self_iff]
        exact asked.symm
      rcases feature.default with noDefault | no
      · exact ⟨none, receives_option feature.plain feature.options noDefault asked (by simp),
          .inr ⟨by simp, .inl rfl⟩⟩
      · refine ⟨some (lit "n"), ?_, .inr ⟨by simp, .inr rfl⟩⟩
        rw [empty]
        refine receives_default feature.plain ?_ no (by decide)
        rw [feature.options]
        exact List.forall_mem_singleton.mpr asked
    | some yes =>
      refine ⟨some (answerText yes), receives_entry feature.plain feature.options asked ?_, ?_⟩
      · cases yes <;> decide
      · cases yes
        · exact .inr ⟨by simp, .inr rfl⟩
        · exact .inl ⟨rfl, rfl⟩
  have node := w.nodes_setNode_self n { w.nodes n with val := x }
  have nodes' : (answered answer param w).nodes n = w.nodes n := by
    unfold answered
    split_ifs <;> rfl
  refine walks_only receives (by rw [node]; exact feature.only) unnamed ?_ (by decide : (0 : ℤ) ≤ 0 ∧ _)
    (fun nvps _ => ?_) ?_
  · rw [node]
    change x ≠ some (lit "default")
    rcases value with ⟨-, rfl⟩ | ⟨-, rfl | rfl⟩ <;> decide
  · exact (callback nvps _).trans (stackPushIfYes_answered feature.plain.open_ feature.unset value)
  · rw [nextToken, transition, nodes', feature.only]
    rfl

/-! ## The chain of the features -/

/-- The answers to the questions for the features; an option that is not in the list has none. -/
structure FeatureAnswers where
  passthrough : Option Bool
  hmac : Option Bool
  xattr : Option Bool
  encryptedView : Option Bool

def FeatureAnswers.of (answers : FeatureAnswers) : NodeId → Option Bool
  | .passthrough => answers.passthrough
  | .hmac => answers.hmac
  | .xattr => answers.xattr
  | .encryptedPassthrough => answers.encryptedView
  | _ => none

/-- The nodes that ask for a feature with an option of its own. -/
def askedFeatures : List NodeId := [.passthrough, .hmac, .xattr, .encryptedPassthrough]

/-- The option of a feature. -/
def featureOption : NodeId → String
  | .passthrough => "ecryptfs_passthrough"
  | .hmac => "ecryptfs_hmac"
  | .xattr => "ecryptfs_xattr"
  | .encryptedPassthrough => "ecryptfs_encrypted_view"
  | _ => ""

/-- The mount parameter of a feature. -/
def featureParam : NodeId → String
  | .passthrough => "ecryptfs_passthrough"
  | .hmac => "ecryptfs_hmac"
  | .xattr => "ecryptfs_xattr_metadata"
  | .encryptedPassthrough => "ecryptfs_encrypted_view"
  | _ => ""

/-- What is pushed at a node of the chain. -/
def pushedParam (answers : FeatureAnswers) (n : NodeId) : Option (Option CStr) :=
  if answers.of n = some true then some (some (lit (featureParam n))) else none

variable {version : UInt32} {nodes : NodeId → MountNode} {answers : FeatureAnswers}

/-- A node of the chain as it is when the evaluation starts. -/
theorem chain_node (static : Static nodes) {n : NodeId} {before after : List NodeId}
    (here : .versionSupport :: featureChain version = before ++ n :: after) :
    ∃ suggested, fillInVersionSupport version nodes n =
      linked { staticNode n with suggestedVal := suggested } after.head? := by
  have inside : n ∈ .versionSupport :: featureChain version := by
    rw [here]
    simp
  obtain ⟨-, noCipher, -⟩ := featureChain_versioned version n inside
  obtain ⟨suggested, filled⟩ := beforeChain_spec version nodes n noCipher
  have same : nodes n = staticNode n := by
    apply static.same n
    · rintro rfl
      exact absurd (featureChain_versioned version _ inside).1 (by decide)
    · rintro m k rfl
      exact absurd (featureChain_versioned version _ inside).1 (by simp [versioned])
  refine ⟨suggested, ?_⟩
  rw [fillInVersionSupport_eq, chainNodes_link (featureChain_nodup version) here, filled, same]

theorem chain_feature (static : Static nodes) {n : NodeId} {before after : List NodeId}
    (here : .versionSupport :: featureChain version = before ++ n :: after)
    (asked : n ∈ askedFeatures) : ∃ f, featureCallback n = some f ∧
      IsFeature (fillInVersionSupport version nodes n) (featureOption n) f (after.head?.getD .end_) ∧
      ∀ nvps u, mountCall (moduleCalls mods) f n nvps u = stackPushIfYes (featureParam n) n u := by
  obtain ⟨suggested, filled⟩ := @chain_node version nodes static n before after here
  rw [filled]
  have default_ : ∀ n ∈ askedFeatures, (staticNode n).defaultVal = none ∨
      (staticNode n).defaultVal = some (lit "n") := by decide
  have ownDefault := default_ n asked
  simp only [askedFeatures, List.mem_cons, List.not_mem_nil, or_false] at asked
  rcases asked with rfl | rfl | rfl | rfl <;>
  · refine ⟨_, rfl, ?_, fun nvps u => rfl⟩
    cases after.head? with
    | none => exact ⟨⟨rfl, rfl, rfl⟩, rfl, rfl, ownDefault, rfl⟩
    | some x => exact ⟨⟨rfl, rfl, rfl⟩, rfl, rfl, ownDefault, rfl⟩

/-- The list has no option of filename encryption, and none for a node that takes no value. -/
structure NoFilename (q : CStr → List (Option CStr)) : Prop where
  fnekSig : q (lit "ecryptfs_fnek_sig") = []
  enable : q (lit "ecryptfs_enable_filename_crypto") = []
  end_ : q (lit "end") = []

theorem NoFilename.update {n : NodeId} (empty : NoFilename q) (asked : n ∈ askedFeatures) :
    NoFilename (Function.update q (lit (featureOption n)) []) := by
  have other : ∀ n ∈ askedFeatures, ∀ x ∈ ["ecryptfs_fnek_sig", "ecryptfs_enable_filename_crypto",
      "end"], lit x ≠ lit (featureOption n) := by
    simp only [ne_eq, lit_inj]
    decide
  refine ⟨?_, ?_, ?_⟩
  · rw [Function.update_of_ne (other n asked _ (by simp))]
    exact empty.fnekSig
  · rw [Function.update_of_ne (other n asked _ (by simp))]
    exact empty.enable
  · rw [Function.update_of_ne (other n asked _ (by simp))]
    exact empty.end_

theorem end_ends (there : w.nodes .end_ = staticNode .end_) (empty : q (lit "end") = []) :
    Ends (mountCall (moduleCalls mods)) names .end_ w q nullTok w := by
  refine ends_terminal (receives_nothing ?_) ?_
  · rw [there]
    exact ⟨⟨rfl, rfl, rfl⟩, List.forall_mem_singleton.mpr empty, .inl rfl⟩
  · rw [there]
    rfl

/-- Without a signature for filenames the node that asks for filename encryption follows, which is
not answered either. -/
theorem fnekSig_ends (fnek : ∃ suggested,
      w.nodes .fnekSig = { staticNode .fnekSig with suggestedVal := suggested })
    (enable : ∃ suggested, w.nodes .enableFilenameCrypto =
      { staticNode .enableFilenameCrypto with suggestedVal := suggested })
    (end_ : w.nodes .end_ = staticNode .end_) (unnamed : lit "default" ∉ names)
    (empty : NoFilename q) : ∃ w',
      Ends (mountCall (moduleCalls mods)) names .fnekSig w q nullTok w' ∧ w'.stack = w.stack := by
  obtain ⟨suggested, fnek⟩ := fnek
  obtain ⟨suggested', enable⟩ := enable
  have val : (w.nodes .fnekSig).val = none := by rw [fnek]; rfl
  have fnekTl : (w.nodes .fnekSig).tl = [defaultTransition (some .end_) (some .fnekSig)] := by
    rw [fnek]
    rfl
  have enableTl : (w.nodes .enableFilenameCrypto).tl =
      [defaultTransition (some .fnekSig) (some .enableFilenameCrypto)] := by
    rw [enable]
    rfl
  obtain ⟨w₁, called, stack⟩ : ∃ w₁, fnekSigCallback .fnekSig w = .ok (0, w₁) ∧
      w₁.stack = w.stack := by
    unfold fnekSigCallback
    simp only [val]
    exact ⟨_, rfl, rfl⟩
  obtain ⟨-, ⟨-, spliced⟩ | ⟨some_, -⟩⟩ := fnekSigCallback_cases fnekTl enableTl called
  swap
  · exact absurd (.inl val) some_
  have first : Walks (mountCall (moduleCalls mods)) names .fnekSig w q .enableFilenameCrypto w₁ q := by
    refine walks_only (receives_nothing ?_) fnekTl unnamed (by rw [val]; simp)
      (by decide : (0 : ℤ) ≤ 0 ∧ _) (fun nvps _ => called) ?_
    · rw [fnek]
      exact ⟨⟨rfl, rfl, rfl⟩, List.forall_mem_singleton.mpr empty.fnekSig, .inl rfl⟩
    · rw [nextToken, transition, spliced.fnek]
      rfl
  have enable₁ : w₁.nodes .enableFilenameCrypto =
      { staticNode .enableFilenameCrypto with
        suggestedVal := suggested'
        tl := [defaultTransition (some .end_) (some .enableFilenameCrypto)] } := by
    rw [spliced.enable, enable]
  have second : Walks (mountCall (moduleCalls mods)) names .enableFilenameCrypto w₁ q .end_
      (clearVal w₁ .enableFilenameCrypto) q := by
    refine walks_only (receives_nothing ?_) (by rw [enable₁]) unnamed
      (by rw [enable₁]; simp [staticNode]) (by decide : (0 : ℤ) ≤ 0 ∧ _) (fun nvps _ => ?_) ?_
    · rw [enable₁]
      exact ⟨⟨rfl, rfl, rfl⟩, List.forall_mem_singleton.mpr empty.enable, .inl rfl⟩
    · change getEnableFilenameCrypto .enableFilenameCrypto w₁ = _
      unfold getEnableFilenameCrypto
      simp only [enable₁]
      rfl
    · rw [nextToken, transition, clearVal_self, enable₁]
      rfl
  refine ⟨clearVal w₁ .enableFilenameCrypto, first.ends (second.ends (end_ends ?_ empty.end_)), stack⟩
  rw [clearVal_other (by decide), spliced.other .end_ (by decide) (by decide), end_]

/-- What the evaluation relies on behind the keys: the nodes from `rest` on are as they were at the
start. -/
structure Fresh (version : UInt32) (nodes : NodeId → MountNode) (rest : List NodeId)
    (w : MountWorld) : Prop where
  chain : ∀ n ∈ rest, w.nodes n = fillInVersionSupport version nodes n
  enable : w.nodes .enableFilenameCrypto = fillInVersionSupport version nodes .enableFilenameCrypto
  end_ : w.nodes .end_ = fillInVersionSupport version nodes .end_

theorem Fresh.of_nodes {rest : List NodeId} {w' : MountWorld} (fresh : Fresh version nodes rest w)
    (same : w'.nodes = w.nodes) : Fresh version nodes rest w' := by
  refine ⟨?_, ?_, ?_⟩
  · rw [same]
    exact fresh.chain
  · rw [same]
    exact fresh.enable
  · rw [same]
    exact fresh.end_

theorem fill_end (static : Static nodes) :
    fillInVersionSupport version nodes .end_ = staticNode .end_ := by
  rw [fillInVersionSupport_other (by decide), static.same _ (by decide) (by simp)]

theorem fill_enable (static : Static nodes) : ∃ suggested,
    fillInVersionSupport version nodes .enableFilenameCrypto =
      { staticNode .enableFilenameCrypto with suggestedVal := suggested } := by
  obtain ⟨suggested, filled⟩ :=
    beforeChain_spec version nodes .enableFilenameCrypto (by decide)
  refine ⟨suggested, ?_⟩
  rw [fillInVersionSupport_eq, chainNodes_other
    fun inside => (featureChain_versioned version _ inside).2.2 rfl, filled,
    static.same _ (by decide) (by simp)]

theorem featureChain_kind (version : UInt32) :
    ∀ n ∈ featureChain version, n ∈ askedFeatures ∨ n = .fnekSig := by
  unfold featureChain
  cases supports version versioningPlaintextPassthrough <;>
    cases supports version versioningHmac <;>
    cases supports version versioningXattr <;>
    cases supports version versioningFilenameEncryption <;>
    decide

/-- The signature for filenames is the last node of the chain. -/
theorem featureChain_last {before after : List NodeId}
    (chain : featureChain version = before ++ .fnekSig :: after) : after = [] := by
  rw [List.eq_nil_iff_forall_not_mem]
  intro n inside
  have sorted := (List.pairwise_cons.mp (featureChain_sorted version)).2
  have kind := featureChain_kind version n (by rw [chain]; simp [inside])
  rw [chain, List.pairwise_append, List.pairwise_cons] at sorted
  have less := sorted.2.1.1 n inside
  have table : ∀ n ∈ askedFeatures, ¬ depthToEnd n < depthToEnd .fnekSig := by decide
  rcases kind with asked | rfl
  · exact table n asked less
  · exact lt_irrefl _ less

theorem featureOption_injective :
    ∀ n ∈ askedFeatures, ∀ k ∈ askedFeatures, featureOption n = featureOption k → n = k := by
  decide

/-- The walk along the chain, by induction over what is left of it. -/
theorem chain_ends (static : Static nodes) (unnamed : lit "default" ∉ names) {before rest : List NodeId}
    (chain : featureChain version = before ++ rest) (fresh : Fresh version nodes rest w)
    (asked : ∀ n ∈ askedFeatures, n ∈ rest →
      q (lit (featureOption n)) = answerQueue (answers.of n)) (empty : NoFilename q) : ∃ w',
      Ends (mountCall (moduleCalls mods)) names (rest.head?.getD .end_) w q nullTok w' ∧
      w'.stack = (rest.filterMap (pushedParam answers)).reverse ++ w.stack := by
  induction rest generalizing before w q with
  | nil => exact ⟨w, end_ends (fresh.end_.trans (fill_end static)) empty.end_, rfl⟩
  | cons n after ih =>
    have here : .versionSupport :: featureChain version = (.versionSupport :: before) ++ n :: after := by
      rw [chain]
      rfl
    rcases featureChain_kind version n (by rw [chain]; simp) with isAsked | rfl
    · obtain ⟨f, -, feature, callback⟩ :=
        @chain_feature mods version nodes static n (.versionSupport :: before) after here isAsked
      rw [← fresh.chain n List.mem_cons_self] at feature
      have walks := feature_walks feature callback unnamed (asked n isAsked List.mem_cons_self)
      have same : (answered (answers.of n) (featureParam n) w).nodes = w.nodes := by
        unfold answered
        split_ifs <;> rfl
      have apart : n ∉ after := by
        have nodup := (List.nodup_cons.mp (featureChain_nodup version)).2
        rw [chain, List.nodup_append, List.nodup_cons] at nodup
        exact nodup.2.1.1
      have fresh' : Fresh version nodes after (answered (answers.of n) (featureParam n) w) := by
        refine Fresh.of_nodes ⟨fun k inside => ?_, fresh.enable, fresh.end_⟩ same
        exact fresh.chain k (List.mem_cons_of_mem n inside)
      obtain ⟨w', ends, stack⟩ := @ih _ _ (before ++ [n]) (by rw [chain]; simp) fresh' (by
        intro k isAsked' inside
        have other : featureOption k ≠ featureOption n := fun same =>
          apart (featureOption_injective k isAsked' n isAsked same ▸ inside)
        rw [Function.update_of_ne fun same => other (lit_inj.mp same)]
        exact asked k isAsked' (List.mem_cons_of_mem n inside)) (empty.update isAsked)
      refine ⟨w', walks.ends ends, ?_⟩
      rw [stack, List.filterMap_cons]
      unfold pushedParam answered
      split_ifs with yes
      · simp [World.push]
      · rfl
    · obtain rfl := featureChain_last chain
      obtain ⟨suggested, fnek⟩ := @chain_node version nodes static _ _ _ here
      have enable : ∃ suggested, w.nodes .enableFilenameCrypto =
          { staticNode .enableFilenameCrypto with suggestedVal := suggested } := by
        rw [fresh.enable]
        exact fill_enable static
      obtain ⟨w', ends, stack⟩ := @fnekSig_ends names q w mods
        ⟨suggested, (fresh.chain _ List.mem_cons_self).trans fnek⟩ enable
        (fresh.end_.trans (fill_end static)) unnamed empty
      exact ⟨w', ends, stack⟩

/-- Without a feature in the version mask there is no node behind `versionSupport`. -/
theorem versionSupport_ends (static : Static nodes) (unnamed : lit "default" ∉ names)
    (fresh : Fresh version nodes (.versionSupport :: featureChain version) w)
    (asked : ∀ n ∈ askedFeatures, q (lit (featureOption n)) = answerQueue (answers.of n))
    (empty : NoFilename q) : ∃ w',
      Ends (mountCall (moduleCalls mods)) names .versionSupport w q
        (if featureChain version = [] then -einval else nullTok) w' ∧
      w'.stack = ((featureChain version).filterMap (pushedParam answers)).reverse ++ w.stack := by
  obtain ⟨suggested, node⟩ := @chain_node version nodes static .versionSupport [] _ rfl
  rw [← fresh.chain _ List.mem_cons_self] at node
  have only : (w.nodes .versionSupport).tl =
      [defaultTransition (featureChain version).head? none] := by
    rw [node]
    cases (featureChain version).head? <;> rfl
  have silent : Silent (w.nodes .versionSupport) q := by
    have absent : ∀ x ∈ (staticNode .versionSupport).mntOptNames, q x = [] :=
      List.forall_mem_singleton.mpr empty.end_
    rw [node]
    cases (featureChain version).head? with
    | none => exact ⟨⟨rfl, rfl, rfl⟩, absent, .inl rfl⟩
    | some x => exact ⟨⟨rfl, rfl, rfl⟩, absent, .inl rfl⟩
  have receives : Receives names .versionSupport w q w q := receives_nothing silent
  have other : (w.nodes .versionSupport).val ≠ some (lit "default") := by
    rw [silent.open_]
    simp
  have next : nextToken w .versionSupport 0 = (featureChain version).head? := by
    rw [nextToken, transition, only]
    rfl
  by_cases none_ : featureChain version = []
  · rw [none_, List.head?_nil] at only next
    rw [if_pos none_, none_]
    exact ⟨w, ends_only receives only unnamed other
      fun nvps _ => .lost (by decide) rfl next, rfl⟩
  · rw [if_neg none_]
    obtain ⟨first, rest, chain⟩ := List.exists_cons_of_ne_nil none_
    have walks : Walks (mountCall (moduleCalls mods)) names .versionSupport w q
        ((featureChain version).head?.getD .end_) w q := by
      refine walks_only receives only unnamed other (by decide : (0 : ℤ) ≤ nullTok ∧ _)
        (fun nvps _ => rfl) ?_
      rw [next, chain]
      rfl
    obtain ⟨w', ends, stack⟩ := @chain_ends names q w mods version nodes answers static unnamed []
      (featureChain version) rfl ⟨fun n inside => fresh.chain n (List.mem_cons_of_mem _ inside),
        fresh.enable, fresh.end_⟩ (fun n isAsked _ => asked n isAsked) empty
    exact ⟨w', walks.ends ends, stack⟩

/-! ## The cipher and the key size -/

theorem exists_first_transition {tl : List (TransitionNode NodeId Callback)} {val : Option CStr}
    (found : ∃ tn ∈ tl, tn.val = val) :
    ∃ j : ℕ, ∃ tn, tl[j]? = some tn ∧ tn.val = val ∧
      ∀ i < j, ∀ u, tl[i]? = some u → u.val ≠ val := by
  induction tl with
  | nil =>
    obtain ⟨tn, inside, -⟩ := found
    cases inside
  | cons head tail ih =>
    by_cases first : head.val = val
    · exact ⟨0, head, rfl, first, fun i low => absurd low (Nat.not_lt_zero i)⟩
    · obtain ⟨tn, inside, same⟩ := found
      rcases List.mem_cons.mp inside with rfl | inside
      · exact absurd same first
      · obtain ⟨j, tn, there, same, earlier⟩ := ih ⟨tn, inside, same⟩
        refine ⟨j + 1, tn, there, same, fun i low u here => ?_⟩
        cases i with
        | zero => exact (Option.some.inj here) ▸ first
        | succ i => exact earlier i (Nat.lt_of_succ_lt_succ low) u here

/-- A turn at a node with a list of labels, one of which is its value. -/
theorem walks_labelled {n m : NodeId} (f : Callback) {v w' : MountWorld} (label : CStr)
    {q' : CStr → List (Option CStr)} (receives : Receives names n w q v q')
    (given : (v.nodes n).val = some label) (found : ∃ tn ∈ (v.nodes n).tl, tn.val = some label)
    (all : ∀ tn ∈ (v.nodes n).tl, ∃ l, tn = ⟨some l, some m, some f⟩ ∧ l ∉ names)
    (short : (v.nodes n).tl.length ≤ maxNumTransitions)
    (called : ∀ nvps, mountCall (moduleCalls mods) f n nvps v = .ok (0, w'))
    (kept : (w'.nodes n).tl = (v.nodes n).tl) :
    Walks (mountCall (moduleCalls mods)) names n w q m w' q' := by
  obtain ⟨j, tn, there, same, earlier⟩ := exists_first_transition found
  obtain ⟨l, rfl, -⟩ := all tn (List.mem_of_getElem? there)
  have bound : j < (v.nodes n).tl.length := (List.getElem?_eq_some_iff.mp there).1
  refine walks_matched j _ receives rfl (same.trans given.symm) (fun i low u here => ?_)
    (bound.trans_le short) fun nvps _ => ⟨there, called nvps, by decide, ?_⟩
  · obtain ⟨l', rfl, unnamed⟩ := all u (List.mem_of_getElem? here)
    exact ⟨l', rfl, unnamed, given ▸ earlier i low _ here⟩
  · rw [nextToken, transition, kept, there]
    rfl

/-- No entry of the stack sets a limit for the key size. -/
def NoLimits (stack : List (Option CStr)) : Prop :=
  ∀ v ∈ stack, strstr (v.getD []) (lit "max_key_bytes=") = false ∧
    strstr (v.getD []) (lit "min_key_bytes=") = false

theorem scanKeyBytes_noLimits {stack : List (Option CStr)} (noLimits : NoLimits stack) (min max : ℤ) :
    scanKeyBytes stack min max = .ok ⟨0, stack, min, max⟩ := by
  induction stack with
  | nil => rfl
  | cons v rest ih =>
    obtain ⟨noMax, noMin⟩ := noLimits v List.mem_cons_self
    have none_ : ∀ name, strstr (v.getD []) (lit name) = false →
        keyBytesLimit name (v.getD []) = .ok none := by
      intro name absent
      unfold keyBytesLimit
      rw [absent]
      rfl
    rw [scanKeyBytes]
    simp only [none_ _ noMax, none_ _ noMin, ih fun u inside => noLimits u (List.mem_cons_of_mem v inside)]
    rfl

/-- The key sizes of a cipher between two limits, in the order of the table. -/
def keySizes (min max : ℤ) (cipher : String) : List ℕ :=
  ((keyBytesBetween min max).filter fun e => e.1 = cipher).map Prod.snd

/-- The key-bytes node after the cipher was chosen. -/
def sizedNode (min max : ℤ) (cipher : String) : MountNode :=
  { staticNode .keyBytes with
    tl := (keySizes min max cipher).map fun n => ⟨some (decimalText n), some .versionSupport, some .keyBytes⟩
    suggestedVal := (keySizes min max cipher).head?.map decimalText }

theorem mem_keySizes {min max : ℤ} {cipher : String} {size : ℕ} :
    size ∈ keySizes min max cipher ↔ (cipher, size) ∈ keyBytesBetween min max := by
  unfold keySizes
  rw [List.mem_map]
  constructor
  · rintro ⟨⟨name, n⟩, inside, rfl⟩
    obtain ⟨inside, same⟩ := List.mem_filter.mp inside
    exact of_decide_eq_true same ▸ inside
  · exact fun inside => ⟨(cipher, size), List.mem_filter.mpr ⟨inside, decide_eq_true rfl⟩, rfl⟩

/-- Without limits all sizes of the table are there. -/
theorem keyBytesBetween_all : keyBytesBetween 0 999999 = supportedKeyBytes := by decide

theorem initKeyBytesNode_eq (min max : ℤ) (cipher : String) :
    initKeyBytesNode (some (lit cipher)) min max (staticNode .keyBytes) =
      if keySizes min max cipher = [] then .ok (.error (-einval)) else .ok (.ok (sizedNode min max cipher)) := by
  have sizes : (((keyBytesBetween min max).filter fun e => lit e.1 = lit cipher).map Prod.snd) =
      keySizes min max cipher := by
    unfold keySizes
    simp only [lit_inj]
  have open_ : (staticNode .keyBytes).tl = [] := rfl
  unfold initKeyBytesNode
  simp only [sizes, open_, List.nil_append, List.map_eq_nil_iff]
  rfl

/-- The labels of the transitions behind the keys. -/
def tailLabels : List CStr :=
  lit "default" :: cipherDescriptors.map lit ++ supportedKeyBytes.map fun e => decimalText e.2

section

variable {cipher : String} {size : ℕ}

variable {min max : ℤ} {rest : List (Option CStr)}

theorem tfCipher_scanned (scanned : scanKeyBytes w.stack 0 999999 = .ok ⟨0, rest, min, max⟩)
    (given : (w.nodes .cipher).val = some (lit cipher))
    (keyBytes : w.nodes .keyBytes = staticNode .keyBytes) :
    tfCipher .cipher w = if keySizes min max cipher = [] then .ok (-einval, { w with stack := rest })
      else .ok (0, (clearVal ({ w with stack := rest }.setNode .keyBytes (sizedNode min max cipher)) .cipher).push
        (param "ecryptfs_cipher=" (lit cipher))) := by
  unfold tfCipher
  rw [scanned]
  simp only [ne_eq, not_true_eq_false, if_false, given, keyBytes, initKeyBytesNode_eq]
  by_cases none_ : keySizes min max cipher = []
  · simp only [none_, if_true]
  · simp only [none_, if_false]
    rfl

/-- What the turn at the cipher begins with. -/
theorem cipher_receives (node : w.nodes .cipher = initCipherNode (staticNode .cipher))
    (known : cipher ∈ cipherDescriptors) (given : q (lit "ecryptfs_cipher") = [some (lit cipher)]) :
    Receives names .cipher w q (w.setNode .cipher { w.nodes .cipher with val := some (lit cipher) })
      (Function.update q (lit "ecryptfs_cipher") []) := by
  refine receives_entry ?_ ?_ given ?_
  · rw [node]
    exact ⟨rfl, rfl, rfl⟩
  · rw [node]
    rfl
  · have table : ∀ c ∈ cipherDescriptors, lit c ≠ nullText := by decide
    exact table cipher known

/-- The turn at the cipher fills in the key sizes. -/
theorem cipher_walks (node : w.nodes .cipher = initCipherNode (staticNode .cipher))
    (keyBytes : w.nodes .keyBytes = staticNode .keyBytes)
    (scanned : scanKeyBytes w.stack 0 999999 = .ok ⟨0, rest, min, max⟩)
    (known : cipher ∈ cipherDescriptors) (some_ : keySizes min max cipher ≠ [])
    (unnamed : ∀ l ∈ tailLabels, l ∉ names) (given : q (lit "ecryptfs_cipher") = [some (lit cipher)]) :
    Walks (mountCall (moduleCalls mods)) names .cipher w q .keyBytes
      (({ w with stack := rest }.setNode .keyBytes (sizedNode min max cipher)).push
        (param "ecryptfs_cipher=" (lit cipher)))
      (Function.update q (lit "ecryptfs_cipher") []) := by
  have open_ : (w.nodes .cipher).val = none := by rw [node]; rfl
  have tl : (w.nodes .cipher).tl = cipherDescriptors.map fun name =>
      ⟨some (lit name), some .keyBytes, some .cipher⟩ := by
    rw [node]
    rfl
  have node' := w.nodes_setNode_self .cipher { w.nodes .cipher with val := some (lit cipher) }
  refine walks_labelled .cipher (lit cipher) (cipher_receives node known given) ?_ ?_ ?_ ?_ (fun nvps => ?_) ?_
  · rw [node']
  · rw [node']
    simp only [tl]
    exact ⟨_, List.mem_map.mpr ⟨cipher, known, rfl⟩, rfl⟩
  · rw [node']
    simp only [tl]
    intro tn among
    obtain ⟨name, inside, rfl⟩ := List.mem_map.mp among
    exact ⟨lit name, rfl, unnamed _ (by simp [tailLabels, inside])⟩
  · rw [node']
    simp only [tl]
    decide
  · refine (@tfCipher_scanned (w.setNode .cipher { w.nodes .cipher with val := some (lit cipher) })
      cipher min max rest scanned (congrArg ParamNode.val node') ?_).trans ((if_neg some_).trans ?_)
    · rw [w.nodes_setNode_of_ne _ (by decide), keyBytes]
    · have swapped : ({ w.setNode .cipher { w.nodes .cipher with val := some (lit cipher) } with
          stack := rest } : MountWorld) =
          ({ w with stack := rest } : MountWorld).setNode .cipher
            { w.nodes .cipher with val := some (lit cipher) } := rfl
      rw [swapped, World.setNode_comm _ _ _ (by decide), clearVal_setNode]
      rw [World.nodes_setNode_of_ne _ _ (by decide)]
      exact cleared_eq open_
  · have other := ({ w with stack := rest } : MountWorld).nodes_setNode_of_ne (sizedNode min max cipher)
      (by decide : NodeId.cipher ≠ .keyBytes)
    rw [node']
    change ((({ w with stack := rest } : MountWorld).setNode .keyBytes
      (sizedNode min max cipher)).nodes .cipher).tl = (w.nodes .cipher).tl
    rw [other]

/-- The turn at the key size. -/
theorem keyBytes_walks (node : w.nodes .keyBytes = sizedNode min max cipher)
    (supported : (cipher, size) ∈ keyBytesBetween min max) (unnamed : ∀ l ∈ tailLabels, l ∉ names)
    (given : q (lit "ecryptfs_key_bytes") = [some (decimalText size)]) :
    Walks (mountCall (moduleCalls mods)) names .keyBytes w q .versionSupport
      (w.push (param "ecryptfs_key_bytes=" (decimalText size)))
      (Function.update q (lit "ecryptfs_key_bytes") []) := by
  have open_ : (w.nodes .keyBytes).val = none := by rw [node]; rfl
  have tl : (w.nodes .keyBytes).tl = (keySizes min max cipher).map fun n =>
      ⟨some (decimalText n), some .versionSupport, some .keyBytes⟩ := by
    rw [node]
    rfl
  have receives : Receives names .keyBytes w q
      (w.setNode .keyBytes { w.nodes .keyBytes with val := some (decimalText size) })
      (Function.update q (lit "ecryptfs_key_bytes") []) := by
    refine receives_entry ?_ ?_ given ?_
    · rw [node]
      exact ⟨rfl, rfl, rfl⟩
    · rw [node]
      rfl
    · have table : ∀ e ∈ supportedKeyBytes, decimalText e.2 ≠ nullText := by decide
      exact table _ (List.mem_filter.mp supported).1
  have node' := w.nodes_setNode_self .keyBytes { w.nodes .keyBytes with val := some (decimalText size) }
  refine walks_labelled .keyBytes (decimalText size) receives ?_ ?_ ?_ ?_
    (fun nvps => ?_) ?_
  · rw [node']
  · rw [node']
    simp only [tl]
    exact ⟨_, List.mem_map.mpr ⟨size, mem_keySizes.mpr supported, rfl⟩, rfl⟩
  · rw [node']
    simp only [tl]
    intro tn among
    obtain ⟨n, inside, rfl⟩ := List.mem_map.mp among
    refine ⟨_, rfl, unnamed _ (List.mem_append_right _ ?_)⟩
    exact List.mem_map.mpr ⟨_, (List.mem_filter.mp (mem_keySizes.mp inside)).1, rfl⟩
  · rw [node']
    simp only [tl, List.length_map, keySizes, keyBytesBetween]
    exact ((List.length_filter_le _ _).trans (List.length_filter_le _ _)).trans (by decide)
  · change tfKeyBytes .keyBytes _ = _
    unfold tfKeyBytes
    rw [node']
    have cleared : clearVal (w.setNode .keyBytes
        { w.nodes .keyBytes with val := some (decimalText size) }) .keyBytes = w :=
      clearVal_setNode (cleared_eq open_)
    exact congrArg (fun u : MountWorld =>
      Except.ok (0, u.push (param "ecryptfs_key_bytes=" (decimalText size)))) cleared
  · rw [node']
    rfl

/-- What a list gives for the part of the graph behind the keys. -/
structure TailOptions (cipher : String) (size : ℕ) (answers : FeatureAnswers)
    (q : CStr → List (Option CStr)) : Prop extends NoFilename q where
  cipher : q (lit "ecryptfs_cipher") = [some (lit cipher)]
  keyBytes : q (lit "ecryptfs_key_bytes") = [some (decimalText size)]
  features : ∀ n ∈ askedFeatures, q (lit (featureOption n)) = answerQueue (answers.of n)

/-- The walk behind the keys, between the limits that the stack sets. -/
theorem tail_ends_between (static : Static nodes) (known : cipher ∈ cipherDescriptors)
    (supported : (cipher, size) ∈ keyBytesBetween min max) (unnamed : ∀ l ∈ tailLabels, l ∉ names)
    (fresh : ∀ n, n ≠ .root → n ≠ .select → n ≠ .anotherKey → (∀ m k, n ≠ .mod m k) →
      w.nodes n = fillInVersionSupport version nodes n)
    (scanned : scanKeyBytes w.stack 0 999999 = .ok ⟨0, rest, min, max⟩)
    (options : TailOptions cipher size answers q) : ∃ w',
      Ends (mountCall (moduleCalls mods)) names .cipher w q
        (if featureChain version = [] then -einval else nullTok) w' ∧
      w'.stack = ((featureChain version).filterMap (pushedParam answers)).reverse ++
        param "ecryptfs_key_bytes=" (decimalText size) ::
        param "ecryptfs_cipher=" (lit cipher) :: rest := by
  have cipherNode : w.nodes .cipher = initCipherNode (staticNode .cipher) := by
    rw [fresh _ (by decide) (by decide) (by decide) (by simp), fillInVersionSupport_cipher,
      static.same _ (by decide) (by simp)]
  have keyBytesNode : w.nodes .keyBytes = staticNode .keyBytes := by
    rw [fresh _ (by decide) (by decide) (by decide) (by simp), fillInVersionSupport_other (by decide),
      static.same _ (by decide) (by simp)]
  have otherQueue : ∀ x, x ≠ "ecryptfs_cipher" → x ≠ "ecryptfs_key_bytes" →
      Function.update (Function.update q (lit "ecryptfs_cipher") []) (lit "ecryptfs_key_bytes") []
        (lit x) = q (lit x) := by
    intro x noCipher noKeyBytes
    rw [Function.update_of_ne fun same => noKeyBytes (lit_inj.mp same),
      Function.update_of_ne fun same => noCipher (lit_inj.mp same)]
  let v : MountWorld := { w with stack := rest }
  have sized : Fresh version nodes (.versionSupport :: featureChain version)
      (v.setNode .keyBytes (sizedNode min max cipher)) := by
    refine ⟨fun n inside => ?_, ?_, ?_⟩
    · have kind := (featureChain_versioned version n inside).1
      rw [v.nodes_setNode_of_ne _ (by rintro rfl; exact absurd kind (by decide))]
      apply fresh n
      · rintro rfl
        exact absurd kind (by decide)
      · rintro rfl
        exact absurd kind (by decide)
      · rintro rfl
        exact absurd kind (by decide)
      · rintro m k rfl
        exact absurd kind (by simp [versioned])
    · rw [v.nodes_setNode_of_ne _ (by decide)]
      exact fresh _ (by decide) (by decide) (by decide) (by simp)
    · rw [v.nodes_setNode_of_ne _ (by decide)]
      exact fresh _ (by decide) (by decide) (by decide) (by simp)
  have features : ∀ n ∈ askedFeatures,
      featureOption n ≠ "ecryptfs_cipher" ∧ featureOption n ≠ "ecryptfs_key_bytes" := by decide
  have first := @cipher_walks names q w mods cipher min max rest cipherNode keyBytesNode scanned known
    (List.ne_nil_of_mem (mem_keySizes.mpr supported)) unnamed options.cipher
  have second := @keyBytes_walks names (Function.update q (lit "ecryptfs_cipher") [])
    ((v.setNode .keyBytes (sizedNode min max cipher)).push (param "ecryptfs_cipher=" (lit cipher))) mods
    cipher size min max (v.nodes_setNode_self .keyBytes (sizedNode min max cipher)) supported unnamed
    (by rw [Function.update_of_ne (by simp)]; exact options.keyBytes)
  obtain ⟨w', ends, stack⟩ := @versionSupport_ends names _ (((v.setNode .keyBytes
    (sizedNode min max cipher)).push (param "ecryptfs_cipher=" (lit cipher))).push
    (param "ecryptfs_key_bytes=" (decimalText size))) mods version nodes answers static
    (unnamed _ List.mem_cons_self) (sized.of_nodes rfl)
    (fun n isAsked => (otherQueue _ (features n isAsked).1 (features n isAsked).2).trans
      (options.features n isAsked))
    ⟨(otherQueue _ (by decide) (by decide)).trans options.fnekSig,
      (otherQueue _ (by decide) (by decide)).trans options.enable,
      (otherQueue _ (by decide) (by decide)).trans options.end_⟩
  exact ⟨w', first.ends (second.ends ends), stack⟩

/-- A key size that the limits exclude makes the evaluation fail: at the cipher if they leave none, and else
at the key size. -/
theorem tail_fails (static : Static nodes) (known : cipher ∈ cipherDescriptors)
    (supported : (cipher, size) ∈ supportedKeyBytes) (excluded : (cipher, size) ∉ keyBytesBetween min max)
    (unnamed : ∀ l ∈ tailLabels, l ∉ names)
    (fresh : ∀ n, n ≠ .root → n ≠ .select → n ≠ .anotherKey → (∀ m k, n ≠ .mod m k) →
      w.nodes n = fillInVersionSupport version nodes n)
    (scanned : scanKeyBytes w.stack 0 999999 = .ok ⟨0, rest, min, max⟩)
    (options : TailOptions cipher size answers q) : ∃ w',
      Ends (mountCall (moduleCalls mods)) names .cipher w q
        (if keySizes min max cipher = [] then -einval else mountError) w' := by
  have cipherNode : w.nodes .cipher = initCipherNode (staticNode .cipher) := by
    rw [fresh _ (by decide) (by decide) (by decide) (by simp), fillInVersionSupport_cipher,
      static.same _ (by decide) (by simp)]
  have keyBytesNode : w.nodes .keyBytes = staticNode .keyBytes := by
    rw [fresh _ (by decide) (by decide) (by decide) (by simp), fillInVersionSupport_other (by decide),
      static.same _ (by decide) (by simp)]
  by_cases none_ : keySizes min max cipher = []
  · rw [if_pos none_]
    let v : MountWorld := w.setNode .cipher { w.nodes .cipher with val := some (lit cipher) }
    have node' : v.nodes .cipher = { w.nodes .cipher with val := some (lit cipher) } :=
      w.nodes_setNode_self _ _
    have tl : (v.nodes .cipher).tl = cipherDescriptors.map fun name =>
        ⟨some (lit name), some .keyBytes, some .cipher⟩ := by
      rw [node', cipherNode]
      rfl
    obtain ⟨j, tn, there, same, earlier⟩ := @exists_first_transition (v.nodes .cipher).tl (some (lit cipher))
      (by rw [tl]; exact ⟨_, List.mem_map.mpr ⟨cipher, known, rfl⟩, rfl⟩)
    have bound : j < (v.nodes .cipher).tl.length := (List.getElem?_eq_some_iff.mp there).1
    have func : tn.transFunc = some .cipher ∧ tn.nextToken = some .keyBytes := by
      have among := List.mem_of_getElem? there
      rw [tl] at among
      obtain ⟨name, -, rfl⟩ := List.mem_map.mp among
      exact ⟨rfl, rfl⟩
    have val : (v.nodes .cipher).val = some (lit cipher) := congrArg ParamNode.val node'
    refine ⟨{ v with stack := rest }, ends_matched (m := .keyBytes) j tn
      (cipher_receives cipherNode known options.cipher) there (by rw [same]; rfl) (same.trans val.symm)
      (fun i low u here => ?_) ?_ (by decide) (fun nvps => ?_) ?_⟩
    · have among := List.mem_of_getElem? here
      have other := earlier i low u here
      change u ∈ (v.nodes .cipher).tl at among
      rw [tl] at among
      obtain ⟨name, inside, rfl⟩ := List.mem_map.mp among
      exact ⟨lit name, rfl, unnamed _ (by simp [tailLabels, inside]), fun same' => other (same'.trans val)⟩
    · refine bound.trans_le ?_
      rw [tl]
      decide
    · rw [func.1]
      refine (@tfCipher_scanned v cipher min max rest scanned val ?_).trans (if_pos none_)
      exact (w.nodes_setNode_of_ne _ (by decide)).trans keyBytesNode
    · change ((v.nodes .cipher).tl[j]?).bind _ = _
      rw [there]
      exact func.2
  · rw [if_neg none_]
    have first := @cipher_walks names q w mods cipher min max rest cipherNode keyBytesNode scanned known none_
      unnamed options.cipher
    let v := (({ w with stack := rest } : MountWorld).setNode .keyBytes (sizedNode min max cipher)).push
      (param "ecryptfs_cipher=" (lit cipher))
    have node : v.nodes .keyBytes = sizedNode min max cipher :=
      ({ w with stack := rest } : MountWorld).nodes_setNode_self .keyBytes (sizedNode min max cipher)
    let u := v.setNode .keyBytes { v.nodes .keyBytes with val := some (decimalText size) }
    have node' : u.nodes .keyBytes = { sizedNode min max cipher with val := some (decimalText size) } := by
      rw [World.nodes_setNode_self, node]
    have receives : Receives names .keyBytes v (Function.update q (lit "ecryptfs_cipher") []) u
        (Function.update (Function.update q (lit "ecryptfs_cipher") []) (lit "ecryptfs_key_bytes") []) := by
      refine receives_entry ?_ ?_ ((Function.update_of_ne (by simp) _ _).trans options.keyBytes) ?_
      · rw [node]
        exact ⟨rfl, rfl, rfl⟩
      · rw [node]
        rfl
      · have table : ∀ e ∈ supportedKeyBytes, decimalText e.2 ≠ nullText := by decide
        exact table _ supported
    have labels : ∀ tn ∈ (u.nodes .keyBytes).tl, ∃ n, (cipher, n) ∈ keyBytesBetween min max ∧
        tn.val = some (decimalText n) := by
      intro tn among
      rw [node'] at among
      obtain ⟨n, inside, rfl⟩ := List.mem_map.mp among
      exact ⟨n, mem_keySizes.mp inside, rfl⟩
    refine ⟨u, first.ends (ends_unmatched receives (fun tn among => ?_) ?_ fun tn among => ?_)⟩
    · obtain ⟨n, between, isLabel⟩ := labels tn among
      refine ⟨_, isLabel, unnamed _ (List.mem_append_right _ ?_), fun same => ?_⟩
      · exact List.mem_map.mpr ⟨_, (List.mem_filter.mp between).1, rfl⟩
      · rw [node'] at same
        have same := decimalText_injective (Option.some.inj same)
        exact excluded (same ▸ between)
    · rw [node']
      change (keySizes min max cipher).map _ ≠ []
      simpa using none_
    · obtain ⟨n, between, isLabel⟩ := labels tn among
      have table : ∀ e ∈ supportedKeyBytes, decimalText e.2 ≠ lit "default" := by decide
      rw [isLabel]
      exact fun same => table _ (List.mem_filter.mp between).1 (Option.some.inj same)

/-- **The walk behind the keys.**  The cipher, the key size and the features that are answered by yes
are pushed; the evaluation only succeeds if the version mask has a feature. -/
theorem tail_ends (static : Static nodes) (known : cipher ∈ cipherDescriptors)
    (supported : (cipher, size) ∈ supportedKeyBytes) (unnamed : ∀ l ∈ tailLabels, l ∉ names)
    (fresh : ∀ n, n ≠ .root → n ≠ .select → n ≠ .anotherKey → (∀ m k, n ≠ .mod m k) →
      w.nodes n = fillInVersionSupport version nodes n)
    (noLimits : NoLimits w.stack) (options : TailOptions cipher size answers q) : ∃ w',
      Ends (mountCall (moduleCalls mods)) names .cipher w q
        (if featureChain version = [] then -einval else nullTok) w' ∧
      w'.stack = ((featureChain version).filterMap (pushedParam answers)).reverse ++
        param "ecryptfs_key_bytes=" (decimalText size) ::
        param "ecryptfs_cipher=" (lit cipher) :: w.stack :=
  tail_ends_between static known (keyBytesBetween_all.symm ▸ supported) unnamed fresh
    (scanKeyBytes_noLimits noLimits 0 999999) options

end

end Ecryptfs
