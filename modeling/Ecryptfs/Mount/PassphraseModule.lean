import Ecryptfs.Mount.KeyModules
import Ecryptfs.Options.File

/-!
# The passphrase module in an evaluation

A passphrase is given by its text or by a file that holds it, and a salt may come along.  The two ways
lead through different nodes, whose functions return different codes, before they meet at the node of
the salt.
-/

namespace Ecryptfs

open Memory

variable {env : MountEnv} {mods : List GraphModule} {m : ℕ} {names : List CStr}
  {q : CStr → List (Option CStr)} {w w' : MountWorld}

/-! ## The nodes -/

/-- The nodes of the passphrase module with the way out of it. -/
def passphraseExit (m : ℕ) : ℕ → MountNode
  | 4 => { passphraseNode m 4 with tl := [defaultTransition (some .anotherKey) (some (.mod m 2))] }
  | k => passphraseNode m k

theorem startNodes_passphrase (isPassphrase : mods[m]? = some (passphraseModule env m)) (k : ℕ) :
    startNodes mods (.mod m k) = passphraseNode m k := by
  simp only [startNodes, isPassphrase]
  rfl

/-- The recursion for the exits comes to the node of the salt, which is the only open end. -/
theorem exitedNodes_passphrase (confined : Confined mods)
    (isPassphrase : mods[m]? = some (passphraseModule env m)) (k : ℕ) :
    exitedNodes mods (.mod m k) = passphraseExit m k := by
  have start := startNodes_passphrase isPassphrase
  have noOpenEnd : ∀ k, k ≠ 4 → NoOpenEnd (startNodes mods) (.mod m k) := by
    intro k other
    unfold NoOpenEnd
    rw [start]
    rcases k with _ | _ | _ | _ | _ | k
    · simp [passphraseNode]
    · simp [passphraseNode]
    · simp [passphraseNode]
    · simp [passphraseNode]
    · exact absurd rfl other
    · simp [passphraseNode]
  by_cases isSalt : k = 4
  · subst isSalt
    have way : Way (startNodes mods) 3 .select (.mod m 4) := by
      refine .step (passphraseModule env m).trans
        (List.mem_map.mpr ⟨_, List.mem_of_getElem? isPassphrase, rfl⟩) rfl ?_
      refine .step ⟨some (lit "passphrase_passwd"), some (.mod m 1), none⟩ ?_ rfl ?_
      · rw [start]
        exact List.mem_cons_self
      refine .step ⟨some (lit "passphrase_salt"), some (.mod m 4), some (.mod m 0)⟩ ?_ rfl
        (.here _)
      rw [start]
      exact List.mem_cons_self
    have only : (startNodes mods (.mod m 4)).tl = [⟨none, none, some (.mod m 2)⟩] := by
      rw [start]
      rfl
    have leaf : exitedNodes mods (.mod m 4) = _ := setExit_leaf way (by decide : 3 < graphDepth) only rfl
    rw [start] at leaf
    exact leaf
  · rw [(exited_spec confined.linked).same _ fun _ => noOpenEnd k isSalt, start]
    unfold passphraseExit
    split
    · exact absurd rfl isSalt
    · rfl

/-! ## What a list gives -/

/-- The two ways to give a passphrase in a list: its text, or a file that holds it. -/
inductive PassWay where
  | passwd
  | file

def PassWay.node : PassWay → ℕ
  | .passwd => 1
  | .file => 2

def PassWay.option : PassWay → String
  | .passwd => "passphrase_passwd"
  | .file => "passphrase_passwd_file"

/-- The function of the transitions of a way. -/
def PassWay.call : PassWay → ℕ
  | .passwd => 0
  | .file => 1

/-- The option names of the passphrase module. -/
def passphraseOptions : List String :=
  ["passphrase_type", "passphrase_passwd", "passwd", "passphrase_passwd_file", "passfile",
    "passphrase_passwd_fd", "passfd", "passphrase_salt", "salt"]

/-- What the list gives to the passphrase module when it has one entry for a way, and perhaps one for a
salt. -/
structure PassGiven (way : PassWay) (value salt : Option CStr) (names : List CStr)
    (q : CStr → List (Option CStr)) : Prop where
  value : q (lit way.option) = [value]
  salts : q (lit "passphrase_salt") = (salt.map some).toList
  others : ∀ x ∈ passphraseOptions, x ≠ way.option → x ≠ "passphrase_salt" → q (lit x) = []
  named : ∀ x ∈ passphraseOptions, x ≠ way.option → x ≠ "passphrase_salt" → lit x ∉ names
  saltNamed : lit "passphrase_salt" ∈ names ↔ salt ≠ none
  unnamed : lit "default" ∉ names

/-- The salt of the passphrase module when none is given. -/
def defaultSalt (env : MountEnv) : Salt := fromHex (holding (defaultSaltHex ++ [0]) env.behindSalt)

/-- The salt that the text of the option stands for. -/
def saltOf (env : MountEnv) (salt : Option CStr) : Salt :=
  fromHex (holding (salt.getD defaultSaltHex ++ [0]) env.behindSalt)

/-- The nodes of the passphrase module are as they were at the start. -/
def PassFresh (m : ℕ) (w : MountWorld) : Prop := ∀ k, w.nodes (.mod m k) = passphraseExit m k

/-! ## The choice of the way -/

/-- The world after the way of the passphrase was chosen. -/
def typed (way : PassWay) (m : ℕ) (w : MountWorld) : MountWorld :=
  w.setNode (.mod m 0) { w.nodes (.mod m 0) with val := some (lit way.option) }

theorem typed_other {way : PassWay} {n : NodeId} (other : n ≠ .mod m 0) :
    (typed way m w).nodes n = w.nodes n :=
  w.nodes_setNode_of_ne _ other

theorem typed_node {way : PassWay} (fresh : PassFresh m w) {k : ℕ} (other : k ≠ 0) :
    (typed way m w).nodes (.mod m k) = passphraseExit m k :=
  (typed_other (by simpa using other)).trans (fresh k)

/-- The queue of the option with the passphrase is empty behind the choice of its way. -/
def behindType (way : PassWay) (q : CStr → List (Option CStr)) : CStr → List (Option CStr) :=
  Function.update q (lit way.option) []

/-- The world in which the passphrase is taken from its option. -/
def sourceWorld (way : PassWay) (m : ℕ) (value : Option CStr) (w : MountWorld) : MountWorld :=
  (typed way m w).setNode (.mod m way.node) ((passphraseNode m way.node).receive value)

theorem type_receives {way : PassWay} {value salt : Option CStr} (fresh : PassFresh m w)
    (given : PassGiven way value salt names q) :
    Receives names (.mod m 0) w q (sourceWorld way m value w) (behindType way q) := by
  have type : w.nodes (.mod m 0) = passphraseNode m 0 := fresh 0
  have other : NodeId.mod m way.node ≠ .mod m 0 := by
    cases way <;> simp [PassWay.node]
  have world : sourceWorld way m value w =
      (w.setNode (.mod m way.node) ((passphraseNode m way.node).receive value)).setNode (.mod m 0)
        { w.nodes (.mod m 0) with val := some (lit way.option) } :=
    (w.setNode_comm _ _ other).symm
  rw [world]
  cases way with
  | passwd =>
    have passwd : w.nodes (.mod m 1) = passphraseNode m 1 := fresh 1
    have receives := @receives_implicit _ _ _ _ names (.mod m 0) (.mod m 1) w q
      (lit "passphrase_passwd") (lit "passphrase_passwd") value [] [] [lit "passwd"]
      ⟨some (lit "passphrase_passwd"), some (.mod m 1), none⟩ [] _
      (by rw [type]; rfl) (by rw [type]; exact ⟨rfl, rfl, rfl⟩)
      (by rw [type]; exact List.forall_mem_singleton.mpr (given.others _ (by decide) (by decide) (by decide)))
      (by rw [type]; rfl) (by decide) (by rw [type]; rfl) (fun u none_ => by cases none_) rfl (by simp)
      (by rw [passwd]; rfl)
      (List.forall_mem_singleton.mpr (given.others _ (by decide) (by decide) (by decide))) given.value
    rw [passwd] at receives
    exact receives
  | file =>
    have passwd : w.nodes (.mod m 1) = passphraseNode m 1 := fresh 1
    have file : w.nodes (.mod m 2) = passphraseNode m 2 := fresh 2
    have receives := @receives_implicit _ _ _ _ names (.mod m 0) (.mod m 2) w q
      (lit "passphrase_passwd") (lit "passphrase_passwd_file") value [] [] [lit "passfile"]
      ⟨some (lit "passphrase_passwd_file"), some (.mod m 2), none⟩
      [⟨some (lit "passphrase_passwd"), some (.mod m 1), none⟩] _
      (by rw [type]; rfl) (by rw [type]; exact ⟨rfl, rfl, rfl⟩)
      (by rw [type]; exact List.forall_mem_singleton.mpr (given.others _ (by decide) (by decide) (by decide)))
      (by rw [type]; rfl) (by decide) (by rw [type]; rfl) ?_ rfl (by simp) (by rw [file]; rfl)
      (List.forall_mem_singleton.mpr (given.others _ (by decide) (by decide) (by decide))) given.value
    · rw [file] at receives
      exact receives
    · -- the list has no passphrase for the node in front
      intro u among
      rw [List.mem_singleton.mp among]
      refine ⟨.mod m 1, rfl, by simp, ?_, ?_⟩
      · rw [passwd]
        intro x isOption
        rcases List.mem_cons.mp isOption with rfl | isOption
        · exact given.others _ (by decide) (by decide) (by decide)
        · rw [List.mem_singleton.mp isOption]
          exact given.others _ (by decide) (by decide) (by decide)
      · rw [passwd]
        exact .inl rfl

theorem source_type {way : PassWay} {value : Option CStr} (fresh : PassFresh m w) :
    (sourceWorld way m value w).nodes (.mod m 0) =
      { passphraseNode m 0 with val := some (lit way.option) } := by
  have other : NodeId.mod m 0 ≠ .mod m way.node := by
    cases way <;> simp [PassWay.node]
  rw [sourceWorld, World.nodes_setNode_of_ne _ _ other, typed, World.nodes_setNode_self, fresh 0]
  rfl

/-- The way is chosen by the option in the list, which is taken for the next node. -/
theorem type_walks {way : PassWay} {value salt : Option CStr} (fresh : PassFresh m w)
    (given : PassGiven way value salt names q) :
    Walks (mountCall (moduleCalls mods)) names (.mod m 0) w q (.mod m way.node)
      (sourceWorld way m value w) (behindType way q) := by
  have receives := type_receives fresh given
  have node := @source_type _ w way value fresh
  cases way with
  | passwd =>
    refine walks_matched 0 ⟨some (lit "passphrase_passwd"), some (.mod m 1), none⟩ receives rfl ?_
      (fun i low => absurd low (Nat.not_lt_zero i)) (by decide) fun nvps _ => ⟨?_, rfl, by decide, ?_⟩
    · rw [node]
      rfl
    · rw [transition, node]
      rfl
    · rw [nextToken, transition, node]
      rfl
  | file =>
    refine walks_matched 1 ⟨some (lit "passphrase_passwd_file"), some (.mod m 2), none⟩ receives rfl ?_
      (fun i low u there => ?_) (by decide) fun nvps _ => ⟨?_, rfl, by decide, ?_⟩
    · rw [node]
      rfl
    · obtain rfl : i = 0 := by omega
      rw [transition, node] at there
      obtain rfl := Option.some.inj there
      refine ⟨_, rfl, given.named _ (by decide) (by decide) (by decide), ?_⟩
      rw [node]
      simp [PassWay.option]
    · rw [transition, node]
      rfl
    · rw [nextToken, transition, node]
      rfl

/-! ## The passphrase -/

/-- The function that reads the passphrase. -/
def PassWay.read (env : MountEnv) : PassWay → NodeCallback
  | .passwd => tfPasswd
  | .file => tfPassFile env

/-- The code of that function when it has read a passphrase. -/
def PassWay.token : PassWay → ℤ
  | .passwd => defaultTok
  | .file => 0

/-- Its code when there is nothing to read from. -/
def PassWay.failure : PassWay → ℤ
  | .passwd => -einval
  | .file => -efault

/-- What the passphrase is when `v` is the value of the option. -/
def PassWay.Gives (env : MountEnv) (v P : CStr) : PassWay → Prop
  | .passwd => v = P
  | .file => ∃ list, env.passFile v = (0, list) ∧ filePassword list = some P

theorem transFunc_way (isPassphrase : mods[m]? = some (passphraseModule env m)) (way : PassWay)
    (code : ℤ) (n : NodeId) (nvps : List NameValPair) (u : MountWorld) :
    transFunc (mountCall (moduleCalls mods)) code (some (.mod m way.call)) n nvps u =
      way.read env n u := by
  simp only [transFunc, mountCall, moduleCalls, isPassphrase]
  cases way <;> rfl

theorem source_tl (way : PassWay) : (passphraseNode m way.node).tl =
    [⟨some (lit "passphrase_salt"), some (.mod m 4), some (.mod m way.call)⟩,
      ⟨some (lit "default"), some (.mod m 4), some (.mod m way.call)⟩] := by
  cases way <;> rfl

theorem source_node {way : PassWay} {value : Option CStr} :
    (sourceWorld way m value w).nodes (.mod m way.node) =
      (passphraseNode m way.node).receive value :=
  World.nodes_setNode_self _ _ _

theorem typed_source {way : PassWay} (fresh : PassFresh m w) :
    (typed way m w).nodes (.mod m way.node) = passphraseNode m way.node := by
  cases way
  · exact typed_node fresh (by decide)
  · exact typed_node fresh (by decide)

/-- A passphrase is read, and put on the stack. -/
theorem read_gives {way : PassWay} {v P : CStr} (fresh : PassFresh m w) (real : v ≠ nullText)
    (gives : way.Gives env v P) : way.read env (.mod m way.node) (sourceWorld way m (some v) w) =
      .ok (way.token, (typed way m w).push (some P)) := by
  have source := @typed_source m w way fresh
  have node := @source_node m w way (some v)
  rw [receive_real real] at node
  have cleared : clearVal (sourceWorld way m (some v) w) (.mod m way.node) = typed way m w := by
    rw [sourceWorld, receive_real real]
    apply clearVal_setNode
    rw [source]
    cases way <;> rfl
  cases way with
  | passwd =>
    obtain rfl : v = P := gives
    unfold PassWay.read tfPasswd
    simp only [node]
    exact congrArg (fun u : MountWorld => Except.ok (defaultTok, u.push (some v))) cleared
  | file =>
    obtain ⟨list, parsed, first⟩ := gives
    obtain ⟨e, found, rfl⟩ := Option.map_eq_some_iff.mp first
    have name : (passphraseNode m PassWay.file.node).mntOptNames.head? =
        some (lit "passphrase_passwd_file") := rfl
    unfold PassWay.read tfPassFile passFromFile
    simp only [node, name, if_true, parsed, ne_eq, not_true_eq_false, if_false, found]
    exact congrArg (fun u : MountWorld => Except.ok (0, u.push (some (printed e.value)))) cleared

theorem read_nothing (way : PassWay) {u : MountWorld} (open_ : (u.nodes (.mod m way.node)).val = none)
    (names : (u.nodes (.mod m way.node)).mntOptNames = (passphraseNode m way.node).mntOptNames) :
    way.read env (.mod m way.node) u = .ok (way.failure, u) := by
  cases way with
  | passwd =>
    unfold PassWay.read tfPasswd
    simp only [open_]
    rfl
  | file =>
    have name : (u.nodes (.mod m PassWay.file.node)).mntOptNames.head? =
        some (lit "passphrase_passwd_file") := by
      rw [names]
      rfl
    have cleared : clearVal u (.mod m PassWay.file.node) = u := by
      refine Eq.trans ?_ (u.setNode_self (.mod m PassWay.file.node))
      exact congrArg (u.setNode _) (cleared_eq open_)
    unfold PassWay.read tfPassFile
    simp only [open_, name, if_true, cleared]
    rfl

/-- The transitions of the node from which the passphrase is taken. -/
theorem source_transition {way : PassWay} {u : MountWorld}
    (tl : (u.nodes (.mod m way.node)).tl = (passphraseNode m way.node).tl) :
    transition u (.mod m way.node) 0 =
        some ⟨some (lit "passphrase_salt"), some (.mod m 4), some (.mod m way.call)⟩ ∧
      transition u (.mod m way.node) 1 =
        some ⟨some (lit "default"), some (.mod m 4), some (.mod m way.call)⟩ := by
  constructor
  · rw [transition, tl, source_tl]
    rfl
  · rw [transition, tl, source_tl]
    rfl

/-- In front of the default transition there is the one for a salt. -/
theorem source_earlier (way : PassWay) {u : MountWorld}
    (tl : (u.nodes (.mod m way.node)).tl = (passphraseNode m way.node).tl) :
    ∀ i < 1, ∀ tn, transition u (.mod m way.node) i = some tn → tn.val = some (lit "passphrase_salt") := by
  intro i low tn there
  obtain rfl := Nat.lt_one_iff.mp low
  rw [(source_transition tl).1] at there
  rw [← Option.some.inj there]

/-- Without anything to read from the evaluation fails. -/
theorem source_fails {way : PassWay} {value salt : Option CStr} {u : MountWorld} (once : names.Nodup)
    (given : PassGiven way value salt names q) (isPassphrase : mods[m]? = some (passphraseModule env m))
    {q' : CStr → List (Option CStr)} {v : MountWorld}
    (receives : Receives names (.mod m way.node) v q' u q')
    (open_ : (u.nodes (.mod m way.node)).val = none)
    (options : (u.nodes (.mod m way.node)).mntOptNames = (passphraseNode m way.node).mntOptNames)
    (tl : (u.nodes (.mod m way.node)).tl = (passphraseNode m way.node).tl) :
    Ends (mountCall (moduleCalls mods)) names (.mod m way.node) v q' way.failure u := by
  obtain ⟨first, second⟩ := source_transition tl
  have earlier : ∀ i < 1, ∀ tn, transition u (.mod m way.node) i = some tn →
      tn.val ≠ some (lit "default") := by
    intro i low tn there
    rw [source_earlier way tl i low tn there]
    simp
  have called : ∀ c nvps, transFunc (mountCall (moduleCalls mods)) c (some (.mod m way.call))
      (.mod m way.node) nvps u = .ok (way.failure, u) := by
    intro c nvps
    rw [transFunc_way isPassphrase, read_nothing way open_ options]
  have negative : way.failure < 0 := by
    cases way <;> decide
  have noToken : way.failure ≠ mountError ∧ way.failure ≠ defaultTok ∧ way.failure ≠ nullTok := by
    cases way <;> decide
  by_cases salted : lit "passphrase_salt" ∈ names
  · refine ends_passed _ once receives first rfl salted (by rw [open_]; simp) noToken (called nullTok)
      first (fun k high tn there => ?_) 1 _ second rfl earlier (by decide)
      fun nvps _ => .failed negative (called nullTok nvps)
    rcases Nat.lt_or_ge k 2 with low | high
    · obtain rfl : k = 1 := by omega
      rw [second] at there
      rw [← Option.some.inj there, open_]
      exact ⟨_, rfl, given.unnamed, by simp⟩
    · rw [transition, tl, source_tl, List.getElem?_eq_none (by simpa using high)] at there
      cases there
  · refine ends_default 1 _ receives (fun tn among => ?_) second rfl earlier (by decide)
      fun nvps _ => .failed negative (called nullTok nvps)
    rw [open_]
    rw [tl, source_tl, List.mem_cons, List.mem_singleton] at among
    rcases among with rfl | rfl
    · exact ⟨_, rfl, salted, by simp⟩
    · exact ⟨_, rfl, given.unnamed, by simp⟩

/-- The values of the option for which the way leads on to the salt.  A value that is the label of a
transition is followed by its value, where only zero leads on; a transition that is named by an entry of
the list needs another code. -/
def PassWay.Leads (v : CStr) (salt : Option CStr) : PassWay → Prop
  | .passwd => v ≠ lit "passphrase_salt" ∧ (salt = none → v ≠ lit "default")
  | .file => salt = none ∨ v = lit "passphrase_salt"

section

variable {way : PassWay} {v P : CStr} {salt : Option CStr} {q' : CStr → List (Option CStr)}

theorem source_val (real : v ≠ nullText) :
    ((sourceWorld way m (some v) w).nodes (.mod m way.node)).val = some v := by
  rw [source_node, receive_real real]

theorem source_sameTl {value : Option CStr} :
    ((sourceWorld way m value w).nodes (.mod m way.node)).tl = (passphraseNode m way.node).tl := by
  rw [source_node]
  unfold ParamNode.receive
  split <;> rfl

/-- Both transitions lead to the salt when the passphrase is read. -/
theorem source_followed (way : PassWay) (isPassphrase : mods[m]? = some (passphraseModule env m))
    (fresh : PassFresh m w) (real : v ≠ nullText) (gives : way.Gives env v P) {i : ℕ}
    {tn : TransitionNode NodeId Callback}
    (taken : transition (sourceWorld way m (some v) w) (.mod m way.node) i = some tn) (c : ℤ)
    (nvps : List NameValPair) :
    Followed (mountCall (moduleCalls mods)) (.mod m way.node) nvps (.mod m 4)
      (sourceWorld way m (some v) w) ((typed way m w).push (some P)) i tn c way.token := by
  have there : (passphraseNode m way.node).tl[i]? = some tn := by
    rw [← source_sameTl]
    exact taken
  have kind : tn.nextToken = some (.mod m 4) ∧ tn.transFunc = some (.mod m way.call) := by
    have among := List.mem_of_getElem? there
    rw [source_tl, List.mem_cons, List.mem_singleton] at among
    rcases among with rfl | rfl
    · exact ⟨rfl, rfl⟩
    · exact ⟨rfl, rfl⟩
  refine ⟨taken, ?_, by cases way <;> decide, ?_⟩
  · rw [kind.2, transFunc_way isPassphrase, read_gives fresh real gives]
  · rw [nextToken, transition]
    change (((typed way m w).nodes (.mod m way.node)).tl[i]?).bind _ = _
    rw [typed_source fresh, there]
    exact kind.1

/-- The passphrase is read, and the salt follows. -/
theorem source_walks (way : PassWay) (isPassphrase : mods[m]? = some (passphraseModule env m)) (fresh : PassFresh m w)
    (given : PassGiven way (some v) salt names q) (real : v ≠ nullText) (gives : way.Gives env v P)
    (leads : way.Leads v salt) :
    Walks (mountCall (moduleCalls mods)) names (.mod m way.node) (sourceWorld way m (some v) w) q'
      (.mod m 4) ((typed way m w).push (some P)) q' := by
  have val := @source_val m w way v real
  have tl := @source_sameTl m w way (some v)
  obtain ⟨first, second⟩ := source_transition tl
  have receives : Receives names (.mod m way.node) (sourceWorld way m (some v) w) q'
      (sourceWorld way m (some v) w) q' := receives_given (by rw [val]; rfl)
  have follow : ∀ {i tn}, transition (sourceWorld way m (some v) w) (.mod m way.node) i = some tn →
      ∀ c nvps, Followed (mountCall (moduleCalls mods)) (.mod m way.node) nvps (.mod m 4)
        (sourceWorld way m (some v) w) ((typed way m w).push (some P)) i tn c way.token :=
    fun taken => source_followed way isPassphrase fresh real gives taken
  by_cases label : v = lit "passphrase_salt"
  · -- the value is followed, which only a file survives
    cases way with
    | passwd => exact absurd label leads.1
    | file =>
      refine walks_matched 0 _ receives rfl ?_ (fun i low => absurd low (Nat.not_lt_zero i)) (by decide)
        fun nvps _ => follow first 0 nvps
      rw [val, label]
  have notLabel : some (lit "passphrase_salt") ≠ some v := fun same => label (Option.some.inj same).symm
  cases salt with
  | none =>
    have unsalted : lit "passphrase_salt" ∉ names := fun named => given.saltNamed.mp named rfl
    have earlier : ∀ i < 1, ∀ tn, transition (sourceWorld way m (some v) w) (.mod m way.node) i =
        some tn → Free names (some v) tn := by
      intro i low tn there
      exact ⟨_, source_earlier way tl i low tn there, unsalted, notLabel⟩
    by_cases isDefault : v = lit "default"
    · cases way with
      | passwd => exact absurd isDefault (leads.2 rfl)
      | file =>
        refine walks_matched 1 _ receives rfl ?_ ?_ (by decide) fun nvps _ => follow second 0 nvps
        · rw [val, isDefault]
        · rw [val]
          exact earlier
    · refine walks_default 1 _ way.token receives (fun tn among => ?_) rfl (fun i low tn there => ?_)
        (by decide) (by cases way <;> decide) fun nvps _ => follow second nullTok nvps
      · rw [val]
        rw [tl, source_tl, List.mem_cons, List.mem_singleton] at among
        rcases among with rfl | rfl
        · exact ⟨_, rfl, unsalted, notLabel⟩
        · exact ⟨_, rfl, given.unnamed, fun same => isDefault (Option.some.inj same).symm⟩
      · rw [source_earlier way tl i low tn there]
        simp
  | some s =>
    have salted : lit "passphrase_salt" ∈ names := given.saltNamed.mpr (by simp)
    cases way with
    | passwd =>
      refine walks_named 0 _ receives rfl salted ?_ (fun i low => absurd low (Nat.not_lt_zero i))
        (by decide) (.inl rfl) fun nvps _ => follow first nullTok nvps
      rw [val]
      exact notLabel
    | file => exact absurd (leads.resolve_left (by simp)) label

/-- The option of the way is the only one of its node that the list has. -/
theorem source_absent {value : Option CStr} (given : PassGiven way value salt names q) :
    ∀ x ∈ (passphraseNode m way.node).mntOptNames, behindType way q x = [] := by
  intro x among
  unfold behindType
  cases way with
  | passwd =>
    rcases List.mem_cons.mp among with rfl | among
    · exact Function.update_self _ _ _
    · rw [List.mem_singleton.mp among, Function.update_of_ne (by simp [PassWay.option])]
      exact given.others _ (by decide) (by decide) (by decide)
  | file =>
    rcases List.mem_cons.mp among with rfl | among
    · exact Function.update_self _ _ _
    · rw [List.mem_singleton.mp among, Function.update_of_ne (by simp [PassWay.option])]
      exact given.others _ (by decide) (by decide) (by decide)

/-- An option without a value gives no passphrase. -/
theorem source_ends_null {value : Option CStr} (once : names.Nodup)
    (isPassphrase : mods[m]? = some (passphraseModule env m))
    (given : PassGiven way value salt names q) (noValue : realValue value = none) :
    Ends (mountCall (moduleCalls mods)) names (.mod m way.node) (sourceWorld way m value w)
      (behindType way q) way.failure (sourceWorld way m value w) := by
  have node := @source_node m w way value
  have received : (passphraseNode m way.node).receive value = { passphraseNode m way.node with
      flags := { (passphraseNode m way.node).flags with parameterSet := true } } := by
    unfold ParamNode.receive
    rw [noValue]
  rw [received] at node
  have open_ : ((sourceWorld way m value w).nodes (.mod m way.node)).val = none := by
    rw [node]
    cases way <;> rfl
  refine source_fails once given isPassphrase (receives_nothing ⟨⟨open_, ?_, ?_⟩, ?_, .inl ?_⟩) open_ ?_
    source_sameTl
  · rw [node]
    cases way <;> rfl
  · rw [node]
    cases way <;> rfl
  · rw [node]
    exact source_absent given
  · rw [node]
    cases way <;> rfl
  · rw [node]

/-- A passphrase that is a label is followed by its value: the evaluation ends with success, and without
a key. -/
theorem source_ends_label (isPassphrase : mods[m]? = some (passphraseModule env m))
    (fresh : PassFresh m w) (given : PassGiven .passwd (some v) salt names q) (real : v ≠ nullText)
    (isLabel : ¬ PassWay.Leads v salt .passwd) :
    Ends (mountCall (moduleCalls mods)) names (.mod m 1) (sourceWorld .passwd m (some v) w) q'
      defaultTok ((typed .passwd m w).push (some v)) := by
  have val := @source_val m w .passwd v real
  have tl := @source_sameTl m w .passwd (some v)
  obtain ⟨first, second⟩ := source_transition tl
  have receives : Receives names (.mod m 1) (sourceWorld .passwd m (some v) w) q'
      (sourceWorld .passwd m (some v) w) q' := receives_given (by
    change ((sourceWorld .passwd m (some v) w).nodes (.mod m PassWay.passwd.node)).val.isSome
    rw [val]
    rfl)
  have follow : ∀ {i tn}, transition (sourceWorld .passwd m (some v) w) (.mod m 1) i = some tn →
      ∀ nvps, Followed (mountCall (moduleCalls mods)) (.mod m 1) nvps (.mod m 4)
        (sourceWorld .passwd m (some v) w) ((typed .passwd m w).push (some v)) i tn 0 defaultTok :=
    fun taken nvps => source_followed .passwd isPassphrase fresh real rfl taken 0 nvps
  by_cases label : v = lit "passphrase_salt"
  · refine ends_matched 0 _ receives first rfl ?_ (fun i low => absurd low (Nat.not_lt_zero i))
      (by decide) (by decide) (fun nvps => (follow first nvps).called) (follow first []).next
    exact (val.trans (congrArg some label)).symm
  · have isDefault : salt = none ∧ v = lit "default" := by
      by_contra other
      exact isLabel ⟨label, fun none_ same => other ⟨none_, same⟩⟩
    have unsalted : lit "passphrase_salt" ∉ names := fun named => given.saltNamed.mp named isDefault.1
    refine ends_matched 1 _ receives second rfl ?_ (fun i low tn there => ?_)
      (by decide) (by decide) (fun nvps => (follow second nvps).called) (follow second []).next
    · exact (val.trans (congrArg some isDefault.2)).symm
    · refine ⟨_, source_earlier .passwd tl i low tn there, unsalted, ?_⟩
      change _ ≠ ((sourceWorld .passwd m (some v) w).nodes (.mod m PassWay.passwd.node)).val
      rw [val]
      exact fun same => label (Option.some.inj same).symm

/-- With a salt in the list the file is read for nothing: the code of its function does not select the
transition to the salt, and the second call finds no name of a file. -/
theorem source_ends_salted {s : CStr} (once : names.Nodup)
    (isPassphrase : mods[m]? = some (passphraseModule env m)) (fresh : PassFresh m w)
    (given : PassGiven .file (some v) (some s) names q) (real : v ≠ nullText)
    (gives : PassWay.Gives env v P .file) (noLabel : v ≠ lit "passphrase_salt") :
    Ends (mountCall (moduleCalls mods)) names (.mod m 2) (sourceWorld .file m (some v) w) q' (-efault)
      ((typed .file m w).push (some P)) := by
  have val := @source_val m w .file v real
  obtain ⟨first, second⟩ := source_transition (@source_sameTl m w .file (some v))
  have node : ((typed .file m w).push (some P)).nodes (.mod m 2) = passphraseNode m 2 :=
    @typed_source m w .file fresh
  obtain ⟨first', second'⟩ := @source_transition m .file ((typed .file m w).push (some P))
    (congrArg ParamNode.tl node)
  have receives : Receives names (.mod m 2) (sourceWorld .file m (some v) w) q'
      (sourceWorld .file m (some v) w) q' := receives_given (by
    change ((sourceWorld .file m (some v) w).nodes (.mod m PassWay.file.node)).val.isSome
    rw [val]
    rfl)
  refine ends_passed _ once receives first rfl (given.saltNamed.mpr (by simp)) ?_
    (by decide : (0 : ℤ) ≠ mountError ∧ _) (fun nvps => ?_) first' (fun k high tn there => ?_) 1 _
    second' rfl (fun i low tn there => ?_) (by decide)
    fun nvps _ => .failed (by decide) ?_
  · exact fun same => noLabel (Option.some.inj (same.trans val)).symm
  · exact (source_followed .file isPassphrase fresh real gives first nullTok nvps).called
  · rcases Nat.lt_or_ge k 2 with low | high
    · obtain rfl : k = 1 := by omega
      change transition _ (.mod m PassWay.file.node) 1 = some tn at there
      rw [second'] at there
      rw [← Option.some.inj there, node]
      exact ⟨_, rfl, given.unnamed, by simp [passphraseNode]⟩
    · rw [transition, node, List.getElem?_eq_none (by simpa [passphraseNode] using high)] at there
      cases there
  · rw [source_earlier .file (congrArg ParamNode.tl node) i low tn there]
    simp
  · exact (transFunc_way isPassphrase .file _ _ nvps _).trans
      (read_nothing .file (congrArg ParamNode.val node) (congrArg ParamNode.mntOptNames node))

/-! ## The salt -/

theorem salt_receives (fresh : PassFresh m w) (salts : q (lit "passphrase_salt") = (salt.map some).toList)
    (others : q (lit "salt") = []) (real : salt ≠ some nullText) :
    Receives names (.mod m 4) ((typed way m w).push (some P)) q
      (((typed way m w).push (some P)).setNode (.mod m 4)
        { passphraseExit m 4 with val := some (salt.getD defaultSaltHex) })
      (Function.update q (lit "passphrase_salt") []) := by
  have node : ((typed way m w).push (some P)).nodes (.mod m 4) = passphraseExit m 4 :=
    typed_node fresh (by decide)
  have plain : Plain (((typed way m w).push (some P)).nodes (.mod m 4)) := by
    rw [node]
    exact ⟨rfl, rfl, rfl⟩
  cases salt with
  | none =>
    have empty : Function.update q (lit "passphrase_salt") [] = q := by
      rw [Function.update_eq_self_iff]
      exact salts.symm
    have default_ := @receives_default _ _ _ _ names (.mod m 4) ((typed way m w).push (some P)) q
      defaultSaltHex plain (by
        rw [node]
        intro x among
        rcases List.mem_cons.mp among with rfl | among
        · exact salts
        · rw [List.mem_singleton.mp among]
          exact others) (by rw [node]; rfl) (by decide)
    rw [node] at default_
    rw [empty]
    exact default_
  | some s =>
    have entry := @receives_among _ _ _ _ names (.mod m 4) ((typed way m w).push (some P)) q
      (lit "passphrase_salt") s [] [] [lit "salt"] plain (by rw [node]; rfl)
      (List.forall_mem_singleton.mpr others) salts fun same => real (congrArg some same)
    rwa [node] at entry

/-- `tf_salt` takes the passphrase from the stack. -/
theorem tfSalt_given (fresh : PassFresh m w) :
    tfSalt env (.mod m 4) (((typed way m w).push (some P)).setNode (.mod m 4)
      { passphraseExit m 4 with val := some (salt.getD defaultSaltHex) }) =
      if (addPassphraseKey env P (saltOf env salt)).1 < 0 then
        .ok ((addPassphraseKey env P (saltOf env salt)).1, typed way m w)
      else .ok (defaultTok, (typed way m w).push
        (param "ecryptfs_sig=" (addPassphraseKey env P (saltOf env salt)).2)) := by
  have there : ((typed way m w).push (some P)).nodes (.mod m 4) = passphraseExit m 4 :=
    typed_node fresh (by decide)
  have node := ((typed way m w).push (some P)).nodes_setNode_self (.mod m 4)
    { passphraseExit m 4 with val := some (salt.getD defaultSaltHex) }
  have cleared : clearVal (((typed way m w).push (some P)).setNode (.mod m 4)
      { passphraseExit m 4 with val := some (salt.getD defaultSaltHex) }) (.mod m 4) =
      (typed way m w).push (some P) := clearVal_setNode there.symm
  unfold tfSalt
  simp only [node, cleared]
  rfl

theorem saltValue_noLabel (noLabel : salt ≠ some (lit "default")) :
    some (salt.getD defaultSaltHex) ≠ some (lit "default") := by
  cases salt with
  | none => decide
  | some s => exact noLabel

theorem transFunc_salt (isPassphrase : mods[m]? = some (passphraseModule env m))
    (nvps : List NameValPair) (u : MountWorld) :
    transFunc (mountCall (moduleCalls mods)) nullTok (some (.mod m 2)) (.mod m 4) nvps u =
      tfSalt env (.mod m 4) u := by
  simp only [transFunc, mountCall, moduleCalls, isPassphrase]
  rfl

/-- The key goes to the keyring, and its signature onto the stack. -/
theorem salt_walks (isPassphrase : mods[m]? = some (passphraseModule env m)) (fresh : PassFresh m w)
    (salts : q (lit "passphrase_salt") = (salt.map some).toList) (others : q (lit "salt") = [])
    (real : salt ≠ some nullText ∧ salt ≠ some (lit "default")) (unnamed : lit "default" ∉ names)
    (added : 0 ≤ (addPassphraseKey env P (saltOf env salt)).1) :
    Walks (mountCall (moduleCalls mods)) names (.mod m 4) ((typed way m w).push (some P)) q
      .anotherKey ((typed way m w).push
        (param "ecryptfs_sig=" (addPassphraseKey env P (saltOf env salt)).2))
      (Function.update q (lit "passphrase_salt") []) := by
  have node := ((typed way m w).push (some P)).nodes_setNode_self (.mod m 4)
    { passphraseExit m 4 with val := some (salt.getD defaultSaltHex) }
  refine walks_only (salt_receives fresh salts others real.1) (by rw [node]; rfl) unnamed ?_
    (by decide : (0 : ℤ) ≤ defaultTok ∧ _) (fun nvps _ => ?_) ?_
  · rw [node]
    exact saltValue_noLabel real.2
  · exact (transFunc_salt isPassphrase nvps _).trans
      ((tfSalt_given fresh).trans (if_neg (not_lt.mpr added)))
  · rw [nextToken, transition]
    change (((typed way m w).nodes (.mod m 4)).tl[0]?).bind _ = _
    rw [typed_node fresh (by decide)]
    rfl

/-- The evaluation fails if the key cannot be made. -/
theorem salt_ends (isPassphrase : mods[m]? = some (passphraseModule env m)) (fresh : PassFresh m w)
    (salts : q (lit "passphrase_salt") = (salt.map some).toList) (others : q (lit "salt") = [])
    (real : salt ≠ some nullText ∧ salt ≠ some (lit "default")) (unnamed : lit "default" ∉ names)
    (failed : (addPassphraseKey env P (saltOf env salt)).1 < 0) :
    Ends (mountCall (moduleCalls mods)) names (.mod m 4) ((typed way m w).push (some P)) q
      (addPassphraseKey env P (saltOf env salt)).1 (typed way m w) := by
  have node := ((typed way m w).push (some P)).nodes_setNode_self (.mod m 4)
    { passphraseExit m 4 with val := some (salt.getD defaultSaltHex) }
  refine ends_only (salt_receives fresh salts others real.1) (by rw [node]; rfl) unnamed ?_
    fun nvps _ => .failed failed ?_
  · rw [node]
    exact saltValue_noLabel real.2
  · exact (transFunc_salt isPassphrase nvps _).trans ((tfSalt_given fresh).trans (if_pos failed))

theorem behindType_salt (given : PassGiven way (some v) salt names q) :
    behindType way q (lit "passphrase_salt") = (salt.map some).toList ∧
      behindType way q (lit "salt") = [] := by
  have other : lit "passphrase_salt" ≠ lit way.option ∧ lit "salt" ≠ lit way.option := by
    cases way <;> simp [PassWay.option]
  unfold behindType
  rw [Function.update_of_ne other.1, Function.update_of_ne other.2]
  refine ⟨given.salts, given.others _ (by decide) ?_ (by decide)⟩
  cases way <;> decide

/-- The queues behind the passphrase module. -/
def behindPass (way : PassWay) (q : CStr → List (Option CStr)) : CStr → List (Option CStr) :=
  Function.update (behindType way q) (lit "passphrase_salt") []

/-- **The way of a passphrase through the module.** -/
theorem passphrase_walks (way : PassWay) (isPassphrase : mods[m]? = some (passphraseModule env m))
    (fresh : PassFresh m w) (given : PassGiven way (some v) salt names q) (real : v ≠ nullText)
    (realSalt : salt ≠ some nullText ∧ salt ≠ some (lit "default")) (gives : way.Gives env v P)
    (leads : way.Leads v salt) (added : 0 ≤ (addPassphraseKey env P (saltOf env salt)).1) :
    Walks (mountCall (moduleCalls mods)) names (.mod m 0) w q .anotherKey
      ((typed way m w).push (param "ecryptfs_sig=" (addPassphraseKey env P (saltOf env salt)).2))
      (behindPass way q) := by
  obtain ⟨salts, others⟩ := behindType_salt given
  exact (type_walks fresh given).trans ((source_walks way isPassphrase fresh given real gives leads).trans
    (salt_walks isPassphrase fresh salts others realSalt given.unnamed added))

theorem typed_keepsGraph (way : PassWay) (w : MountWorld) (x : Option CStr) :
    KeepsGraph w ((typed way m w).push x) :=
  fun _ outside => typed_other fun same => outside ⟨m, 0, same⟩

end

/-! ## The module as a key module -/

theorem attribute_passphrase {x : CStr} :
    Attribute [passphraseModule env 0] x ↔ x ∈ passphraseOptions.map lit := by
  constructor
  · rintro ⟨m, k, named⟩
    rcases m with _ | m
    · rcases k with _ | _ | _ | _ | _ | k
      · have table : ∀ x ∈ (passphraseNode 0 0).mntOptNames, x ∈ passphraseOptions.map lit := by decide
        exact table x named
      · have table : ∀ x ∈ (passphraseNode 0 1).mntOptNames, x ∈ passphraseOptions.map lit := by decide
        exact table x named
      · have table : ∀ x ∈ (passphraseNode 0 2).mntOptNames, x ∈ passphraseOptions.map lit := by decide
        exact table x named
      · have table : ∀ x ∈ (passphraseNode 0 3).mntOptNames, x ∈ passphraseOptions.map lit := by decide
        exact table x named
      · have table : ∀ x ∈ (passphraseNode 0 4).mntOptNames, x ∈ passphraseOptions.map lit := by decide
        exact table x named
      · cases named
    · cases named
  · intro inside
    have table : ∀ x ∈ passphraseOptions.map lit, ∃ k < 5, x ∈ (passphraseNode 0 k).mntOptNames := by
      decide
    obtain ⟨k, -, named⟩ := table x inside
    exact ⟨0, k, named⟩

theorem passphraseNode_module (k : ℕ) : ModuleNode (passphraseNode 0 k) := by
  have names : ∀ k < 5, ∀ x ∈ (passphraseNode 0 k).mntOptNames, x ∉ reservedNames := by decide
  have nexts : ∀ k < 5, ∀ tn ∈ (passphraseNode 0 k).tl,
      tn.nextToken ∈ none :: ([1, 2, 3, 4].map fun j => some (NodeId.mod 0 j)) := by decide
  have funcs : ∀ k < 5, ∀ tn ∈ (passphraseNode 0 k).tl,
      tn.transFunc ∈ none :: ([0, 1, 2].map fun c => some (Callback.mod 0 c)) := by decide
  by_cases low : k < 5
  · refine ⟨names k low, fun tn among x leads => .inr ?_, fun tn among f isFunc => ?_⟩
    · have inside := nexts k low tn among
      rw [leads, List.mem_cons, or_iff_right (by simp)] at inside
      obtain ⟨j, -, same⟩ := List.mem_map.mp inside
      exact ⟨0, j, (Option.some.inj same).symm⟩
    · have inside := funcs k low tn among
      rw [isFunc, List.mem_cons, or_iff_right (by simp)] at inside
      obtain ⟨c, -, same⟩ := List.mem_map.mp inside
      exact ⟨0, c, (Option.some.inj same).symm⟩
  · obtain ⟨j, rfl⟩ := Nat.exists_eq_add_of_le (not_lt.mp low)
    have empty : passphraseNode 0 (5 + j) = { mntOptNames := [] } := by
      rw [Nat.add_comm]
      rfl
    rw [empty]
    exact ⟨fun x none_ => (by cases none_), fun tn none_ => (by cases none_),
      fun tn none_ => (by cases none_)⟩

/-- A callback that only works on the value of its node is confined to the modules. -/
theorem OnlyVal.confined {n : NodeId} (isModule : IsModule n) (only : OnlyVal n w w')
    (modules : ModuleNodes w) : ModuleNodes w' ∧ KeepsGraph w w' := by
  obtain ⟨v, nodes⟩ := only
  refine ⟨fun m k => ?_, fun x outside => ?_⟩
  · rw [nodes, Function.update_apply]
    split_ifs with same
    · have node := modules m k
      rw [same] at node
      exact ⟨node.names, node.next, node.func⟩
    · exact modules m k
  · have other : x ≠ n := by
      rintro rfl
      exact outside isModule
    rw [nodes, Function.update_of_ne other]

theorem passphraseCall_onlyVal {c : ℕ} {n : NodeId} {nvps : List NameValPair} {code : ℤ}
    (h : (passphraseModule env 0).call c n nvps w = .ok (code, w')) : OnlyVal n w w' := by
  rcases c with _ | _ | _ | c
  · rcases tfPasswd_cases h with ⟨-, -, rfl⟩ | ⟨-, cleared⟩
    · exact .of_nodes rfl
    · exact .clear cleared
  · exact .clear (tfPassFile_cases h).2
  · exact tfSalt_onlyVal h
  · cases h

theorem confined_passphrase (env : MountEnv) : Confined [passphraseModule env 0] := by
  refine ⟨?_, ?_, ?_, ?_⟩
  · intro g registered
    rw [List.mem_singleton.mp registered]
    exact ⟨⟨_, rfl⟩, ⟨_, rfl, 0, 0, rfl⟩, fun f isFunc => by cases isFunc⟩
  · intro g registered
    rw [List.mem_singleton.mp registered]
    exact passphraseNode_module
  · intro m c n nvps w code w' isModule h modules
    rcases m with _ | m
    · exact (passphraseCall_onlyVal h).confined isModule modules
    · cases h
  · intro g registered m c isFunc
    rw [List.mem_singleton.mp registered] at isFunc
    cases isFunc

/-- The key of a passphrase. -/
def passphraseKey (env : MountEnv) (P : CStr) : KeySpec where
  keyMod := 0
  modAlias := lit "passphrase"
  attributes := [(lit "passphrase_passwd", some P)]
  sig := (addPassphraseKey env P (defaultSalt env)).2

/-- The passphrase module completes a key with a passphrase. -/
theorem completes_passphrase (version : UInt32) {P : CStr} (real : P ≠ nullText)
    (noLabel : P ≠ lit "passphrase_salt" ∧ P ≠ lit "default")
    (added : 0 ≤ (addPassphraseKey env P (defaultSalt env)).1) :
    Completes version [passphraseModule env 0] (passphraseKey env P) (passphraseModule env 0) := by
  intro names q w given fresh val
  have isAttribute : ∀ x ∈ passphraseOptions, Attribute [passphraseModule env 0] (lit x) :=
    fun x inside => attribute_passphrase.mpr (List.mem_map.mpr ⟨x, inside, rfl⟩)
  have empty : ∀ x ∈ passphraseOptions, x ≠ "passphrase_passwd" → q (lit x) = [] := by
    intro x inside other
    have noKey : ∀ x ∈ passphraseOptions, x ≠ "key" := by decide
    rw [given.attributes _ (isAttribute x inside)]
    simp [queue, KeySpec.entries, passphraseKey, other.symm, (noKey x inside).symm]
  have unnamed : ∀ x ∈ passphraseOptions, x ≠ "passphrase_passwd" → lit x ∉ names := by
    intro x inside other named
    have noKey : ∀ x ∈ passphraseOptions, x ≠ "key" := by decide
    have entry := given.named _ named (isAttribute x inside)
    simp [KeySpec.entries, passphraseKey, other, noKey x inside] at entry
  have passGiven : PassGiven .passwd (some P) none names q := by
    refine ⟨?_, empty _ (by decide) (by decide), fun x inside other _ => empty x inside other,
      fun x inside other _ => unnamed x inside other, ?_, given.unnamed⟩
    · rw [PassWay.option, given.attributes _ (isAttribute _ (by decide))]
      simp [queue, KeySpec.entries, passphraseKey]
    · exact ⟨fun named => absurd named (unnamed _ (by decide) (by decide)), fun some_ => absurd rfl some_⟩
  have fresh' : PassFresh 0 w := by
    intro k
    rw [fresh 0 k, mountNodes_module, exitedNodes_passphrase (confined_passphrase env) rfl]
  refine ⟨.mod 0 0, w, _, _, rfl, fun nvps _ => rfl, fun _ _ => rfl,
    passphrase_walks .passwd rfl fresh' passGiven real (by simp) rfl
      ⟨noLabel.1, fun _ => noLabel.2⟩ added, typed_keepsGraph _ w _, fun x other => ?_, ?_⟩
  · unfold behindPass behindType
    have saltOther : x ≠ lit "passphrase_salt" := by
      rintro rfl
      exact other (isAttribute _ (by decide))
    have passwdOther : x ≠ lit PassWay.passwd.option := by
      rintro rfl
      exact other (isAttribute _ (by decide))
    rw [Function.update_of_ne saltOther, Function.update_of_ne passwdOther]
  · exact (signatures_cons _ _).trans (if_pos (isSignature_sig _))

end Ecryptfs
