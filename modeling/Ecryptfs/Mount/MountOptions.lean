import Ecryptfs.Mount.Keys
import Ecryptfs.Options.Parser
import Ecryptfs.Options.Union

/-!
# Mounts with a passphrase

What `ecryptfs_process_decision_graph` makes of a complete list of options for one passphrase, in any
order: the parameters of the mount are pushed, unless the version mask has no feature, in which case
the graph ends in front of the node behind the key size.
-/

namespace Ecryptfs

open StateTransition

/-! ## The whole evaluation -/

/-- The names that `ecryptfs_process_decision_graph` allows more than once: the one of the key selection
and those of the subgraphs of the key modules. -/
def allowedDuplicates (mods : List GraphModule) : List CStr :=
  lit "key" :: mods.flatMap fun g =>
    match g.trans.nextToken with
    | none => []
    | some n => insertParams (startNodes mods) graphDepth n

/-- Where `ecryptfs_process_decision_graph` starts to evaluate the graph, on the union of the options in
the rc file and the options of the mount. -/
def processStart (version : UInt32) (mods : List GraphModule) (rcFile opts : List NameValPair)
    (inputs : List (Except {rc : ℤ // rc < 0} CStr)) : Config NodeId Callback MountExt :=
  evalStart .root (mountState version mods (nvpListUnion rcFile opts (allowedDuplicates mods)) inputs)

/-- `ecryptfs_process_decision_graph`, without an rc file, returns `rc` and leaves `stack` behind. -/
def Processed (version : UInt32) (mods : List GraphModule) (opts : List NameValPair)
    (inputs : List (Except {rc : ℤ // rc < 0} CStr)) (rc : ℤ) (stack : List (Option CStr)) : Prop :=
  ∃ code last s, Reaches (evalStep (mountCall (moduleCalls mods)))
    (processStart version mods [] opts inputs) (.done code last s) ∧
    evalResult code = rc ∧ s.world.stack = stack

/-- The world in which an evaluation starts. -/
def startWorld (version : UInt32) (mods : List GraphModule) : MountWorld :=
  ⟨mountNodes version mods, [none], {}⟩

variable {version : UInt32} {mods : List GraphModule} {opts : List NameValPair}
  {inputs : List (Except {rc : ℤ // rc < 0} CStr)} {env : MountEnv} {m : ℕ}

/-- What the list of a mount comes to for its evaluation. -/
structure Listed (opts : List NameValPair) (names : List CStr) (q : CStr → List (Option CStr)) :
    Prop where
  once : (opts.map NameValPair.name).Nodup
  names : opts.map NameValPair.name = names
  queues : ∀ x, (queue x opts).map (fun v => some (printed v)) = q x
  quiet : q (lit "verbosity") = [some (lit "0")]

/-- An evaluation has one outcome. -/
theorem processed_iff {names : List CStr} {q : CStr → List (Option CStr)} {code : ℤ} {w' : MountWorld}
    (listed : Listed opts names q)
    (ends : Ends (mountCall (moduleCalls mods)) names .root (startWorld version mods) q code w')
    (rc : ℤ) (stack : List (Option CStr)) :
    Processed version mods opts inputs rc stack ↔ evalResult code = rc ∧ w'.stack = stack := by
  have copied : nvpListUnion [] opts (allowedDuplicates mods) = opts.map copyNvPair :=
    nvpListUnion_nil _ listed.once
  have offers : Offers names q (opts.map copyNvPair) :=
    ⟨(names_copied opts).trans listed.names, fun x => (queue_copied x opts).trans (listed.queues x)⟩
  have quiet : getVerbosity (opts.map copyNvPair) = .ok 0 := by
    refine getVerbosity_found (lit "0") ?_ ((offers.queues _).trans listed.quiet)
    rw [names_copied]
    exact listed.once
  have start : processStart version mods [] opts inputs =
      .at .root (mountState version mods (opts.map copyNvPair) inputs) := by
    rw [processStart, copied, evalStart_quiet quiet]
  obtain ⟨last, s, reached, world⟩ := ends _ offers
    (mountState version mods (opts.map copyNvPair) inputs) ⟨rfl, rfl, rfl⟩
  constructor
  · rintro ⟨code', last', s', reached', rfl, rfl⟩
    rw [start] at reached'
    obtain ⟨rfl, -, rfl⟩ := Config.done.inj (Machine.final_unique reached rfl reached' rfl)
    exact ⟨rfl, congrArg World.stack world.symm⟩
  · rintro ⟨rfl, rfl⟩
    exact ⟨code, last, s, start ▸ reached, rfl, congrArg World.stack world⟩

/-! ## The options of a mount -/

/-- The options of a mount with one passphrase, each with its value if it is given: the passphrase by
one of its ways and perhaps a salt, a cipher and a key size, and answers for the features. -/
def mountTable (way : PassWay) (value salt : Option CStr) (cipher : String) (size : ℕ)
    (answers : FeatureAnswers) : List (String × Option (Option CStr)) :=
  [("verbosity", some (some (lit "0"))),
    ("key", some (some (lit "passphrase"))),
    (way.option, some value),
    ("passphrase_salt", salt.map some),
    ("ecryptfs_cipher", some (some (lit cipher))),
    ("ecryptfs_key_bytes", some (some (decimalText size))),
    ("ecryptfs_passthrough", answers.passthrough.map fun yes => some (answerText yes)),
    ("ecryptfs_hmac", answers.hmac.map fun yes => some (answerText yes)),
    ("ecryptfs_xattr", answers.xattr.map fun yes => some (answerText yes)),
    ("ecryptfs_encrypted_view", answers.encryptedView.map fun yes => some (answerText yes))]

/-- The names of the options. -/
def mountNames (way : PassWay) : List String :=
  ["verbosity", "key", way.option, "passphrase_salt", "ecryptfs_cipher", "ecryptfs_key_bytes",
    "ecryptfs_passthrough", "ecryptfs_hmac", "ecryptfs_xattr", "ecryptfs_encrypted_view"]

variable {way : PassWay} {value salt : Option CStr} {cipher : String} {size : ℕ}
  {answers : FeatureAnswers}

theorem mountTable_names :
    (mountTable way value salt cipher size answers).map Prod.fst = mountNames way := rfl

theorem mountNames_once (way : PassWay) : (mountNames way).Nodup := by
  cases way <;> decide

/-- The queues of a mount. -/
def mountQueue (way : PassWay) (value salt : Option CStr) (cipher : String) (size : ℕ)
    (answers : FeatureAnswers) (x : CStr) : List (Option CStr) :=
  (queue x (entries (mountTable way value salt cipher size answers))).map fun v => some (printed v)

theorem mountQueue_given {name : String} (given : Option (Option CStr))
    (inTable : (name, given) ∈ mountTable way value salt cipher size answers) :
    mountQueue way value salt cipher size answers (lit name) =
      given.toList.map fun v => some (printed v) := by
  rw [mountQueue, queue_entries _ given inTable]
  rw [mountTable_names]
  exact mountNames_once way

theorem mountQueue_absent {name : String} (absent : name ∉ mountNames way) :
    mountQueue way value salt cipher size answers (lit name) = [] := by
  rw [mountQueue, queue_entries_absent]
  · rfl
  · rw [mountTable_names]
    exact absent

theorem listed_mount (given : opts.Perm (entries (mountTable way value salt cipher size answers))) :
    Listed opts (opts.map NameValPair.name) (mountQueue way value salt cipher size answers) := by
  have once : ((entries (mountTable way value salt cipher size answers)).map
      NameValPair.name).Nodup := by
    apply entries_once
    rw [mountTable_names]
    exact mountNames_once way
  refine ⟨((given.map NameValPair.name).nodup_iff).mpr once, rfl, fun x => ?_, ?_⟩
  · rw [queue_perm given once]
    rfl
  · exact mountQueue_given (some (some (lit "0"))) (by simp [mountTable])

theorem named_mount (given : opts.Perm (entries (mountTable way value salt cipher size answers)))
    {x : CStr} (named : x ∈ opts.map NameValPair.name) : x ∈ (mountNames way).map lit := by
  rw [(given.map NameValPair.name).mem_iff, named_entries] at named
  obtain ⟨row, inTable, rfl, -⟩ := named
  rw [← @mountTable_names way value salt cipher size answers]
  exact List.mem_map_of_mem (List.mem_map_of_mem inTable)

theorem unnamed_mount (given : opts.Perm (entries (mountTable way value salt cipher size answers)))
    {name : String} (absent : name ∉ mountNames way) : lit name ∉ opts.map NameValPair.name := by
  intro named
  obtain ⟨x, inside, same⟩ := List.mem_map.mp (named_mount given named)
  exact absent (lit_inj.mp same ▸ inside)

/-! ## The way through the graph -/

/-- The key modules of a graph whose module number `m` is the passphrase module: it is the first one with
its alias, and no alias is the name of an option of the mount. -/
structure PassphraseGraph (version : UInt32) (env : MountEnv) (m : ℕ) (mods : List GraphModule) :
    Prop where
  supported : supports version versioningPassphrase = true
  confined : Confined mods
  module : mods[m]? = some (passphraseModule env m)
  first : ∀ i < m, ∀ g, mods[i]? = some g → g.trans.val ≠ some (lit "passphrase")
  few : mods.length ≤ maxNumTransitions
  labels : ∀ g ∈ mods, ∀ l, g.trans.val = some l → ∀ way, l ∉ (mountNames way).map lit

/-- The selection of the passphrase module. -/
def passphraseSpec (m : ℕ) : KeySpec := ⟨m, lit "passphrase", [], []⟩

/-- The world in which the passphrase module is entered. -/
def enteredWorld (version : UInt32) (mods : List GraphModule) (m : ℕ) : MountWorld :=
  selected (passphraseSpec m) (startWorld version mods)

/-- The queues behind the selection of the passphrase module. -/
def enteredQueue (way : PassWay) (value salt : Option CStr) (cipher : String) (size : ℕ)
    (answers : FeatureAnswers) : CStr → List (Option CStr) :=
  Function.update (mountQueue way value salt cipher size answers) (lit "key") []

section

variable (graph : PassphraseGraph version env m mods)
  (given : opts.Perm (entries (mountTable way value salt cipher size answers)))

include graph given in
theorem mount_enters : Walks (mountCall (moduleCalls mods)) (opts.map NameValPair.name) .root
    (startWorld version mods) (mountQueue way value salt cipher size answers) (.mod m 0)
    (enteredWorld version mods m) (enteredQueue way value salt cipher size answers) := by
  have registered : Registered mods (passphraseSpec m) (passphraseModule env m) :=
    ⟨graph.module, rfl, graph.first, by change lit "passphrase" ≠ nullText; decide, graph.few⟩
  have noLabels : NoLabels mods (opts.map NameValPair.name) := by
    refine ⟨unnamed_mount given (by cases way <;> decide), fun g registered l isLabel named => ?_⟩
    exact graph.labels g registered l isLabel way (named_mount given named)
  refine enter_walks graph.confined registered
    (mountNodes_static graph.confined.linked (by decide) (by decide) (by simp))
    (mountNodes_select graph.confined.linked) noLabels (mountQueue_absent (by cases way <;> decide)) ?_
    (rfl : (passphraseModule env m).trans.nextToken = some (.mod m 0)) (fun nvps _ => rfl) rfl
  exact mountQueue_given (some (some (lit "passphrase"))) (by simp [mountTable])

theorem enteredQueue_other {x : CStr} (other : x ≠ lit "key") :
    enteredQueue way value salt cipher size answers x =
      mountQueue way value salt cipher size answers x :=
  Function.update_of_ne other _ _

include given in
theorem mount_passGiven : PassGiven way (some (printed value)) salt (opts.map NameValPair.name)
    (enteredQueue way value salt cipher size answers) := by
  have noKey : ∀ x ∈ way.option :: passphraseOptions, x ≠ "key" := by
    cases way <;> decide
  have absent : ∀ x ∈ passphraseOptions, x ≠ way.option → x ≠ "passphrase_salt" →
      x ∉ mountNames way := by
    cases way <;> decide
  have salts : mountQueue way value salt cipher size answers (lit "passphrase_salt") =
      (salt.map some).toList := by
    rw [mountQueue_given (salt.map some) (by simp [mountTable])]
    cases salt <;> rfl
  refine ⟨?_, ?_, fun x inside noOption noSalt => ?_, fun x inside noOption noSalt => ?_, ?_, ?_⟩
  · rw [enteredQueue_other fun same => noKey _ List.mem_cons_self (lit_inj.mp same)]
    exact mountQueue_given (some value) (by simp [mountTable])
  · rw [enteredQueue_other (by simp)]
    exact salts
  · rw [enteredQueue_other fun same => noKey x (List.mem_cons_of_mem _ inside) (lit_inj.mp same)]
    exact mountQueue_absent (absent x inside noOption noSalt)
  · exact unnamed_mount given (absent x inside noOption noSalt)
  · rw [(given.map NameValPair.name).mem_iff, named_queue, queue_entries
      (mountTable_names ▸ mountNames_once way) (salt.map some) (by simp [mountTable])]
    cases salt <;> simp
  · exact unnamed_mount given (by cases way <;> decide)

/-- The queues behind the key. -/
def keyedQueue (way : PassWay) (value salt : Option CStr) (cipher : String) (size : ℕ)
    (answers : FeatureAnswers) : CStr → List (Option CStr) :=
  behindPass way (enteredQueue way value salt cipher size answers)

theorem keyedQueue_other {x : String} (noKey : x ≠ "key") (noOption : x ≠ way.option)
    (noSalt : x ≠ "passphrase_salt") : keyedQueue way value salt cipher size answers (lit x) =
      mountQueue way value salt cipher size answers (lit x) := by
  unfold keyedQueue behindPass behindType
  rw [Function.update_of_ne fun same => noSalt (lit_inj.mp same),
    Function.update_of_ne fun same => noOption (lit_inj.mp same),
    enteredQueue_other fun same => noKey (lit_inj.mp same)]

theorem keyedQueue_absent {x : String} (absent : x ∉ mountNames way) :
    keyedQueue way value salt cipher size answers (lit x) = [] := by
  have other : ∀ y ∈ mountNames way, x ≠ y := fun y inside same => absent (same ▸ inside)
  rw [keyedQueue_other (other _ (by simp [mountNames])) (other _ (by simp [mountNames]))
    (other _ (by simp [mountNames]))]
  exact mountQueue_absent absent

theorem keyedQueue_key : keyedQueue way value salt cipher size answers (lit "key") = [] := by
  have other : lit "key" ≠ lit way.option := by
    cases way <;> simp [PassWay.option]
  unfold keyedQueue behindPass behindType enteredQueue
  rw [Function.update_of_ne (by simp), Function.update_of_ne other, Function.update_self]

theorem mount_tailOptions : TailOptions cipher size answers
    (keyedQueue way value salt cipher size answers) := by
  have other : ∀ x ∈ ["ecryptfs_cipher", "ecryptfs_key_bytes", "ecryptfs_passthrough", "ecryptfs_hmac",
      "ecryptfs_xattr", "ecryptfs_encrypted_view"],
      x ≠ "key" ∧ x ≠ way.option ∧ x ≠ "passphrase_salt" := by
    cases way <;> decide
  have found : ∀ x ∈ ["ecryptfs_cipher", "ecryptfs_key_bytes", "ecryptfs_passthrough",
      "ecryptfs_hmac", "ecryptfs_xattr", "ecryptfs_encrypted_view"], ∀ given,
      (x, given) ∈ mountTable way value salt cipher size answers →
      keyedQueue way value salt cipher size answers (lit x) =
        given.toList.map fun v => some (printed v) := by
    intro x inside given inTable
    obtain ⟨noKey, noOption, noSalt⟩ := other x inside
    rw [keyedQueue_other noKey noOption noSalt, mountQueue_given given inTable]
  refine ⟨⟨?_, ?_, ?_⟩, ?_, ?_, fun n asked => ?_⟩
  · exact keyedQueue_absent (by cases way <;> decide)
  · exact keyedQueue_absent (by cases way <;> decide)
  · exact keyedQueue_absent (by cases way <;> decide)
  · exact found _ (by simp) (some (some (lit cipher))) (by simp [mountTable])
  · exact found _ (by simp) (some (some (decimalText size))) (by simp [mountTable])
  · have answer : ∀ a : Option Bool, ((a.map fun yes => some (answerText yes)).toList.map
        fun v => some (printed v)) = answerQueue a := by
      intro a
      cases a <;> rfl
    simp only [askedFeatures, List.mem_cons, List.not_mem_nil, or_false] at asked
    rcases asked with rfl | rfl | rfl | rfl
    · exact (found _ (by simp [featureOption]) _ (by simp [mountTable, featureOption])).trans
        (answer answers.passthrough)
    · exact (found _ (by simp [featureOption]) _ (by simp [mountTable, featureOption])).trans
        (answer answers.hmac)
    · exact (found _ (by simp [featureOption]) _ (by simp [mountTable, featureOption])).trans
        (answer answers.xattr)
    · exact (found _ (by simp [featureOption]) _ (by simp [mountTable, featureOption])).trans
        (answer answers.encryptedView)

include graph in
theorem entered_fresh : PassFresh m (enteredWorld version mods m) := by
  intro k
  rw [enteredWorld, selected_other (by simp) (by simp)]
  exact (mountNodes_module m k).trans (exitedNodes_passphrase graph.confined graph.module k)

/-- The feature parameters of a mount, in the order in which the graph asks for them: the version mask
supports the feature, and its option was answered by yes. -/
def featureParams (version : UInt32) (answers : FeatureAnswers) : List (Option CStr) :=
  (if supports version versioningPlaintextPassthrough ∧ answers.passthrough = some true then
      [some (lit "ecryptfs_passthrough")] else []) ++
    (if supports version versioningHmac ∧ answers.hmac = some true then
      [some (lit "ecryptfs_hmac")] else []) ++
    (if supports version versioningXattr ∧ answers.xattr = some true then
      [some (lit "ecryptfs_xattr_metadata")] else []) ++
    (if supports version versioningXattr ∧ answers.encryptedView = some true then
      [some (lit "ecryptfs_encrypted_view")] else [])

/-- The parameters of a mount in the order in which they are pushed, behind the sentinel. -/
def mountParams (version : UInt32) (cipher : String) (size : ℕ) (answers : FeatureAnswers)
    (sig : CStr) : List (Option CStr) :=
  [none, param "ecryptfs_sig=" sig, param "ecryptfs_cipher=" (lit cipher),
    param "ecryptfs_key_bytes=" (decimalText size)] ++ featureParams version answers

theorem chain_params (version : UInt32) (answers : FeatureAnswers) :
    (featureChain version).filterMap (pushedParam answers) = featureParams version answers := by
  have single : ∀ (supported : Bool) (n : NodeId) (answer : Option Bool), answers.of n = answer →
      (if supported then [n] else []).filterMap (pushedParam answers) =
        if supported ∧ answer = some true then [some (lit (featureParam n))] else [] := by
    rintro supported n answer rfl
    cases supported with
    | false => simp
    | true =>
      by_cases yes : answers.of n = some true
      · simp [pushedParam, yes]
      · simp [pushedParam, yes]
  have pair : (if supports version versioningXattr then [NodeId.xattr, .encryptedPassthrough] else []) =
      (if supports version versioningXattr then [NodeId.xattr] else []) ++
        if supports version versioningXattr then [NodeId.encryptedPassthrough] else [] := by
    split <;> rfl
  have silent : (if supports version versioningFilenameEncryption then [NodeId.fnekSig] else []).filterMap
      (pushedParam answers) = [] := by
    split <;> rfl
  unfold featureChain featureParams
  rw [pair, List.filterMap_append, List.filterMap_append, List.filterMap_append, List.filterMap_append,
    silent, single _ .passthrough _ rfl, single _ .hmac _ rfl, single _ .xattr _ rfl,
    single _ .encryptedPassthrough _ rfl, List.append_nil, ← List.append_assoc]
  rfl

/-- The nodes behind the keys are as they were at the start when the passphrase module is left. -/
theorem behindModule_node (sig : Option CStr) {n : NodeId} (noRoot : n ≠ .root)
    (noSelect : n ≠ .select) (noModule : ∀ i k, n ≠ .mod i k) :
    ((typed way m (enteredWorld version mods m)).push sig).nodes n = mountNodes version mods n :=
  (typed_other (noModule m 0)).trans (selected_other noRoot noSelect)

/-- Behind the passphrase module the other parameters of the mount are pushed; the evaluation succeeds
if the version mask has a feature. -/
theorem behindModule_ends (confined : Confined mods) (unnamed : ∀ l ∈ tailLabels, l ∉ opts.map NameValPair.name)
    {sig : CStr} (digits : ∀ c ∈ sig, c ∈ hexDigits) (known : cipher ∈ cipherDescriptors)
    (supported : (cipher, size) ∈ supportedKeyBytes) : ∃ w',
    Ends (mountCall (moduleCalls mods)) (opts.map NameValPair.name) .anotherKey
      ((typed way m (enteredWorld version mods m)).push (param "ecryptfs_sig=" sig))
      (keyedQueue way value salt cipher size answers)
      (if featureChain version = [] then -einval else nullTok) w' ∧
    w'.stack = (mountParams version cipher size answers sig).reverse := by
  have anotherKey : ((typed way m (enteredWorld version mods m)).push
      (param "ecryptfs_sig=" sig)).nodes .anotherKey = staticNode .anotherKey :=
    (behindModule_node _ (by decide) (by decide) (by simp)).trans
      (mountNodes_static confined.linked (by decide) (by decide) (by simp))
  have absent : keyedQueue way value salt cipher size answers (lit "another_key") = [] :=
    keyedQueue_absent (by cases way <;> decide)
  have leave := @leave_walks mods _ _ _ anotherKey (unnamed _ List.mem_cons_self) absent keyedQueue_key
  have noLimits : NoLimits [param "ecryptfs_sig=" sig, none] := by
    intro x among
    rcases List.mem_cons.mp among with rfl | among
    · exact ⟨plainSignature digits _, plainSignature digits _⟩
    · rw [List.mem_singleton.mp among]
      decide
  obtain ⟨w', ends, stack⟩ := tail_ends (static_exited confined.linked) known supported unnamed
    (fun n noRoot noSelect noAnother noModule => (setFirstNext_other noAnother).trans
      (behindModule_node (param "ecryptfs_sig=" sig) noRoot noSelect noModule))
    noLimits (@mount_tailOptions way value salt cipher size answers)
  refine ⟨w', leave.ends ends, stack.trans ?_⟩
  rw [chain_params, mountParams, List.reverse_append]
  rfl

/-- The way to the node from which the passphrase is taken. -/
theorem mount_type (graph : PassphraseGraph version env m mods)
    (given : opts.Perm (entries (mountTable way value salt cipher size answers))) :
    Walks (mountCall (moduleCalls mods)) (opts.map NameValPair.name) .root (startWorld version mods)
      (mountQueue way value salt cipher size answers) (.mod m way.node)
      (sourceWorld way m (some (printed value)) (enteredWorld version mods m))
      (behindType way (enteredQueue way value salt cipher size answers)) :=
  (mount_enters graph given).trans (type_walks (entered_fresh graph) (mount_passGiven given))

/-- A mount whose passphrase is read and gives a key. -/
theorem mount_ends (graph : PassphraseGraph version env m mods) {v P : CStr}
    (given : opts.Perm (entries (mountTable way (some v) salt cipher size answers)))
    (known : cipher ∈ cipherDescriptors) (supported : (cipher, size) ∈ supportedKeyBytes)
    (real : v ≠ nullText) (realSalt : salt ≠ some nullText ∧ salt ≠ some (lit "default"))
    (gives : way.Gives env v P) (leads : way.Leads v salt)
    (added : 0 ≤ (addPassphraseKey env P (saltOf env salt)).1 ∧
      ∀ c ∈ (addPassphraseKey env P (saltOf env salt)).2, c ∈ hexDigits) : ∃ w',
    Ends (mountCall (moduleCalls mods)) (opts.map NameValPair.name) .root (startWorld version mods)
      (mountQueue way (some v) salt cipher size answers)
      (if featureChain version = [] then -einval else nullTok) w' ∧
    w'.stack = (mountParams version cipher size answers
      (addPassphraseKey env P (saltOf env salt)).2).reverse := by
  have unnamed : ∀ l ∈ tailLabels, l ∉ opts.map NameValPair.name := by
    have table : ∀ l ∈ tailLabels, l ∉ (mountNames way).map lit := by
      cases way <;> decide
    exact fun l among named => table l among (named_mount given named)
  have walks := (mount_enters graph given).trans (passphrase_walks way graph.module (entered_fresh graph)
    (mount_passGiven given) real realSalt gives leads added.1)
  obtain ⟨w', ends, stack⟩ := @behindModule_ends version mods opts m way (some v) salt cipher size
    answers graph.confined unnamed _ added.2 known supported
  exact ⟨w', walks.ends ends, stack⟩

end

/-! ## Mounts by the text of a passphrase -/

/-- NSS and the keyring take every key. -/
structure KeyringWorks (env : MountEnv) : Prop where
  hashOk : ∀ k, env.nss.hashOk k = true
  added : ∀ sig, 0 ≤ env.addAuthTok sig

/-- A passphrase that fits gives a key with a signature of hexadecimal digits. -/
theorem addPassphraseKey_fits (works : KeyringWorks env) (salt : Salt) {P : CStr}
    (fits : P.length ≤ maxPassphraseBytes) : 0 ≤ (addPassphraseKey env P salt).1 ∧
      ∀ c ∈ (addPassphraseKey env P salt).2, c ∈ hexDigits := by
  obtain ⟨s, generated⟩ := generatePassphraseSig_ok env.nss works.hashOk salt fits
  obtain ⟨last, isSig⟩ := generatePassphraseSig_toHex env.nss generated
  unfold addPassphraseKey
  rw [generated]
  refine ⟨works.added s.sig, ?_⟩
  change ∀ c ∈ s.sig, c ∈ hexDigits
  rw [isSig]
  exact toHex_hexDigits _

theorem addPassphraseKey_long (env : MountEnv) (salt : Salt) {P : CStr} (long : maxPassphraseBytes < P.length) :
    (addPassphraseKey env P salt).1 = -einval := by
  have generated : generatePassphraseSig env.nss salt P = .error (-einval) := if_pos long
  unfold addPassphraseKey
  rw [generated]
  rfl

/-- The version mask supports one of the features that the graph asks for. -/
def HasFeature (version : UInt32) : Prop :=
  ∃ feature ∈ [versioningPlaintextPassthrough, versioningHmac, versioningXattr,
    versioningFilenameEncryption], supports version feature = true

theorem featureChain_eq_nil : featureChain version = [] ↔ ¬ HasFeature version := by
  unfold featureChain HasFeature
  simp only [List.append_eq_nil_iff, List.mem_cons, List.not_mem_nil, or_false, exists_eq_or_imp,
    exists_eq_left, not_or, ite_eq_right_iff, Bool.not_eq_true]
  constructor
  · rintro ⟨⟨⟨passthrough, hmac⟩, xattr⟩, filename⟩
    refine ⟨?_, ?_, ?_, ?_⟩ <;> rw [← Bool.not_eq_true]
    · exact fun supported => by cases passthrough supported
    · exact fun supported => by cases hmac supported
    · exact fun supported => by cases xattr supported
    · exact fun supported => by cases filename supported
  · rintro ⟨passthrough, hmac, xattr, filename⟩
    simp [passthrough, hmac, xattr, filename]

theorem realValue_printed {P : CStr} :
    realValue (some (printed (valueOf P))) = none ↔ P = [] ∨ P = nullText := by
  have null : ∀ v : CStr, realValue (some v) = none ↔ v = nullText := by
    intro v
    unfold realValue
    rw [Option.filter_some]
    simp
  rw [null]
  by_cases empty : P = []
  · rw [empty]
    exact iff_of_true rfl (.inl rfl)
  · rw [valueOf, if_neg empty, or_iff_right empty]
    rfl

/-- Without a feature the evaluation fails behind the key size. -/
theorem mount_fails (graph : PassphraseGraph version env m mods) {v P : CStr}
    (given : opts.Perm (entries (mountTable way (some v) salt cipher size answers)))
    (known : cipher ∈ cipherDescriptors) (supported : (cipher, size) ∈ supportedKeyBytes)
    (real : v ≠ nullText) (realSalt : salt ≠ some nullText ∧ salt ≠ some (lit "default"))
    (gives : way.Gives env v P) (leads : way.Leads v salt)
    (added : 0 ≤ (addPassphraseKey env P (saltOf env salt)).1 ∧
      ∀ c ∈ (addPassphraseKey env P (saltOf env salt)).2, c ∈ hexDigits)
    (noFeature : ¬ HasFeature version) (stack : List (Option CStr)) :
    ¬ Processed version mods opts inputs 0 stack := by
  obtain ⟨w', ends, -⟩ := mount_ends graph given known supported real realSalt gives leads added
  rw [if_pos (featureChain_eq_nil.mpr noFeature)] at ends
  rw [processed_iff (listed_mount given) ends]
  exact fun both => absurd both.1 (by decide)

/-- With a feature the parameters of the mount are pushed. -/
theorem mount_succeeds (graph : PassphraseGraph version env m mods) {v P : CStr}
    (given : opts.Perm (entries (mountTable way (some v) salt cipher size answers)))
    (known : cipher ∈ cipherDescriptors) (supported : (cipher, size) ∈ supportedKeyBytes)
    (real : v ≠ nullText) (realSalt : salt ≠ some nullText ∧ salt ≠ some (lit "default"))
    (gives : way.Gives env v P) (leads : way.Leads v salt)
    (added : 0 ≤ (addPassphraseKey env P (saltOf env salt)).1 ∧
      ∀ c ∈ (addPassphraseKey env P (saltOf env salt)).2, c ∈ hexDigits)
    (feature : HasFeature version) (rc : ℤ) (stack : List (Option CStr)) :
    Processed version mods opts inputs rc stack ↔ rc = 0 ∧ stack = (mountParams version cipher size
      answers (addPassphraseKey env P (saltOf env salt)).2).reverse := by
  obtain ⟨w', ends, pushed⟩ := mount_ends graph given known supported real realSalt gives leads added
  rw [if_neg fun noFeature => featureChain_eq_nil.mp noFeature feature] at ends
  rw [processed_iff (listed_mount given) ends, pushed, show evalResult nullTok = 0 from rfl, eq_comm,
    eq_comm (b := stack)]

/-- **A mount by the text of a passphrase** succeeds with the parameters that its options ask for, and
nothing else, exactly when the version mask has a feature and the passphrase is neither empty nor too
long, nor the text of a null pointer. -/
theorem mountProcessed_iff (graph : PassphraseGraph version env m mods) (works : KeyringWorks env)
    {P : CStr} (noLabel : P ≠ lit "passphrase_salt" ∧ P ≠ lit "default")
    (known : cipher ∈ cipherDescriptors) (supported : (cipher, size) ∈ supportedKeyBytes)
    (given : opts.Perm (entries (mountTable .passwd (valueOf P) none cipher size answers))) :
    Processed version mods opts inputs 0 (mountParams version cipher size answers
      (addPassphraseKey env P (defaultSalt env)).2).reverse ↔
      HasFeature version ∧ P ≠ [] ∧ P ≠ nullText ∧ P.length ≤ maxPassphraseBytes := by
  have listed := listed_mount given
  by_cases noValue : P = [] ∨ P = nullText
  · have ends := (mount_type graph given).ends (source_ends_null listed.once graph.module
      (mount_passGiven given) (realValue_printed.mpr noValue))
    rw [processed_iff listed ends]
    refine iff_of_false (fun both => absurd both.1 (by decide)) fun all => ?_
    exact noValue.elim all.2.1 all.2.2.1
  rw [not_or] at noValue
  have value : valueOf P = some P := if_neg noValue.1
  rw [value] at given listed
  by_cases fits : P.length ≤ maxPassphraseBytes
  · have added := addPassphraseKey_fits works (saltOf env none) fits
    by_cases feature : HasFeature version
    · rw [mount_succeeds graph given known supported noValue.2 (by simp) (rfl : PassWay.Gives env P P
        .passwd) ⟨noLabel.1, fun _ => noLabel.2⟩ added feature]
      exact iff_of_true ⟨rfl, rfl⟩ ⟨feature, noValue.1, noValue.2, fits⟩
    · exact iff_of_false (mount_fails graph given known supported noValue.2 (by simp)
        (rfl : PassWay.Gives env P P .passwd) ⟨noLabel.1, fun _ => noLabel.2⟩ added feature _)
        fun all => feature all.1
  · have failed := addPassphraseKey_long env (saltOf env none) (not_le.mp fits)
    obtain ⟨salts, others⟩ := behindType_salt (mount_passGiven given)
    have fresh := entered_fresh graph
    have ends := (mount_type graph given).ends ((source_walks (P := P) .passwd graph.module fresh
      (mount_passGiven given) noValue.2 rfl ⟨noLabel.1, fun _ => noLabel.2⟩).ends
      (salt_ends graph.module fresh salts others (by simp)
        (mount_passGiven given).unnamed (by rw [failed]; decide)))
    rw [processed_iff listed ends, failed]
    exact iff_of_false (fun both => absurd both.1 (by decide)) fun all => fits all.2.2.2

/-- The graph with the passphrase module only. -/
theorem passphraseGraph_only (supported : supports version versioningPassphrase = true)
    (env : MountEnv) : PassphraseGraph version env 0 [passphraseModule env 0] := by
  refine ⟨supported, confined_passphrase env, rfl, fun i low => absurd low (Nat.not_lt_zero i), ?_,
    fun g registered l isLabel way => ?_⟩
  · exact (by decide : 1 ≤ maxNumTransitions)
  · rw [List.mem_singleton.mp registered] at isLabel
    obtain rfl := Option.some.inj isLabel
    cases way <;> decide

theorem keyringWorks_plain : KeyringWorks plainEnv := ⟨fun _ => rfl, fun _ => le_rfl⟩

/-- The options of a mount with a passphrase that asks for two features. -/
def sampleAnswers : FeatureAnswers := ⟨some true, none, some true, some false⟩

def mountSample : List NameValPair :=
  entries (mountTable .passwd (valueOf (lit "secret")) none "aes" 16 sampleAnswers)

/-- With a mask that supports passphrases and the passthrough, the mount asks for the passthrough. -/
theorem mountProcessed_sample : Processed 0x5 [passphraseModule plainEnv 0] mountSample.reverse [] 0
    [some (lit "ecryptfs_passthrough"), param "ecryptfs_key_bytes=" (lit "16"),
      param "ecryptfs_cipher=" (lit "aes"),
      param "ecryptfs_sig=" (addPassphraseKey plainEnv (lit "secret") (defaultSalt plainEnv)).2,
      none] := by
  have given : mountSample.reverse.Perm mountSample := List.reverse_perm _
  exact (mountProcessed_iff (passphraseGraph_only rfl plainEnv) keyringWorks_plain (by decide)
    (by decide) (by decide) given).mpr ⟨⟨versioningPlaintextPassthrough, by decide, rfl⟩, by decide,
      by decide, by decide⟩

/-- With the mask that the mount helper falls back to, the same mount fails. -/
theorem passphrase_only_fails :
    PassphraseGraph versioningPassphrase plainEnv 0 [passphraseModule plainEnv 0] ∧
    KeyringWorks plainEnv ∧ "aes" ∈ cipherDescriptors ∧ ("aes", 16) ∈ supportedKeyBytes ∧
    ∀ stack, ¬ Processed versioningPassphrase [passphraseModule plainEnv 0] mountSample [] 0 stack := by
  have given : mountSample.Perm (entries (mountTable .passwd (some (lit "secret")) none "aes" 16
      sampleAnswers)) := .refl _
  refine ⟨passphraseGraph_only rfl plainEnv, keyringWorks_plain, by decide, by decide, ?_⟩
  refine mount_fails (passphraseGraph_only rfl plainEnv) given (by decide) (by decide) (by decide)
    (by simp) (rfl : PassWay.Gives plainEnv _ (lit "secret") .passwd) ⟨by decide, fun _ => by decide⟩
    (addPassphraseKey_fits keyringWorks_plain _ (by decide)) ?_
  unfold HasFeature
  decide

end Ecryptfs
