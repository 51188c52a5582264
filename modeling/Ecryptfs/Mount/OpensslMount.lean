import Ecryptfs.Messaging.MountedKeys
import Ecryptfs.Mount.CipherLimits
import Ecryptfs.Mount.OpensslModule
import Ecryptfs.Mount.PassphraseFile

/-!
# Mounts with an OpenSSL key

A list of options that names a key file and its passphrase, evaluated from the root of the graph to its end: the
key gives its signature and a limit for the key size (`openssl_mount_iff`), and by a descriptor the evaluation
succeeds without any key (`openssl_fd_iff`).
-/

namespace Ecryptfs

open StateTransition Openssl

/-! ## The limit for the key size -/

theorem strtol_intText {z : ℤ} (lower : -2 ^ 63 ≤ z) (upper : z < 2 ^ 63) : strtol (intText z) = some z := by
  have digits : ∀ n : ℕ, ∃ c s, decimalText n = c :: s ∧ isDigit c = true := by
    intro n
    rcases text : decimalText n with _ | ⟨c, s⟩
    · rw [decimalText_eq, List.map_eq_nil_iff] at text
      exact absurd text Nat.toDigits_ne_nil
    · refine ⟨c, s, rfl, ?_⟩
      have among : c ∈ decimalText n := text ▸ List.mem_cons_self
      rw [decimalText_eq, List.mem_map] at among
      obtain ⟨e, among, rfl⟩ := among
      exact (isDigit_code (Nat.isDigit_of_mem_toDigits (by norm_num) (by norm_num) among)).1
  obtain ⟨c, s, text, digit⟩ := digits z.natAbs
  have value : decimal 0 (c :: s) = z.natAbs := text ▸ decimal_decimalText z.natAbs
  unfold intText
  split_ifs with negative
  · have read : atoi (45 :: c :: s) = -(decimal 0 (c :: s) : ℤ) := rfl
    have minus : (45 :: c :: s : CStr).dropWhile isSpace = 45 :: c :: s := rfl
    rw [text]
    unfold strtol
    simp only [minus, List.head?_cons, List.tail_cons, or_true, if_true, Option.map_some, digit, Option.getD_some,
      read, value]
    congr 1
    omega
  · rw [text, strtol_digit digit, value]
    congr 1
    omega

theorem intText_noLimit {z : ℤ} {c : UInt8} (noDigit : isDigit c = false) (noMinus : c ≠ 45) : c ∉ intText z := by
  have digits : ∀ n : ℕ, c ∉ decimalText n := by
    intro n among
    rw [decimalText_eq, List.mem_map] at among
    obtain ⟨e, among, rfl⟩ := among
    rw [(isDigit_code (Nat.isDigit_of_mem_toDigits (by norm_num) (by norm_num) among)).1] at noDigit
    cases noDigit
  unfold intText
  split_ifs
  · exact fun among => (List.mem_cons.mp among).elim noMinus (digits _)
  · exact digits _

/-- What the loop over the stack reads of the limit of a key. -/
theorem limitsOf_maxKeyBytes {z : ℤ} (lower : -2 ^ 63 ≤ z) (upper : z < 2 ^ 63) :
    limitsOf (lit "max_key_bytes=" ++ intText z) = (.ok (some z), .ok none) := by
  have occurs : strstr (lit "max_key_bytes=" ++ intText z) (lit "max_key_bytes=") = true :=
    strstr_of_isPrefixOf (List.isPrefixOf_iff_prefix.mpr (List.prefix_append _ _))
  have behind : afterChar 61 (lit "max_key_bytes=" ++ intText z) = some (intText z) := rfl
  have absent : strstr (lit "max_key_bytes=" ++ intText z) (lit "min_key_bytes=") = false := by
    rw [Bool.eq_false_iff]
    intro found
    have inside : (105 : UInt8) ∈ lit "max_key_bytes=" ++ intText z := mem_of_strstr found (by decide)
    rcases List.mem_append.mp inside with inside | inside
    · exact absurd inside (by decide)
    · exact intText_noLimit (by decide) (by decide) inside
  unfold limitsOf keyBytesLimit
  rw [if_pos occurs, behind, absent]
  dsimp only
  rw [strtol_intText lower upper]
  rfl

/-- The limit is taken off the stack, and the signature behind it is passed over. -/
theorem scanKeyBytes_openssl {z : ℤ} (lower : -2 ^ 63 ≤ z) (upper : z < 2 ^ 63) (sig : Option CStr) :
    scanKeyBytes [some (lit "max_key_bytes=" ++ intText z), sig, none] 0 999999 = .ok ⟨0, [sig, none], 0, z⟩ := by
  rw [scanKeyBytes_limit (limitsOf_maxKeyBytes lower upper) (by simp), scanKeyBytes_sentinel]
  rfl

/-- A negative limit does not limit anything, since it is compared as an unsigned number. -/
theorem mem_keyBytesBetween {z : ℤ} (lower : -2 ^ 31 ≤ z) (upper : z < 2 ^ 31) {cipher : String} {size : ℕ}
    (supported : (cipher, size) ∈ supportedKeyBytes) :
    (cipher, size) ∈ keyBytesBetween 0 z ↔ (size : ℤ) ≤ z ∨ z < 0 := by
  have small : ∀ e ∈ supportedKeyBytes, e.2 < 2 ^ 31 := by decide
  have short : size < 2 ^ 31 := small _ supported
  have zero : toUnsigned 0 = 0 := rfl
  unfold keyBytesBetween
  rw [List.mem_filter, and_iff_right supported, decide_eq_true_eq, zero, and_iff_right (Nat.zero_le _)]
  change size ≤ toUnsigned z ↔ _
  unfold toUnsigned
  omega

/-! ## The options of a mount -/

/-- The options of a mount with an OpenSSL key, each with its value if it is given. -/
def sslTable (way : SslWay) (path v : CStr) (cipher : String) (size : ℕ) (answers : FeatureAnswers) :
    List (String × Option (Option CStr)) :=
  [("verbosity", some (some (lit "0"))),
    ("key", some (some (lit "openssl"))),
    ("openssl_keyfile", some (some path)),
    (way.option, some (some v)),
    ("ecryptfs_cipher", some (some (lit cipher))),
    ("ecryptfs_key_bytes", some (some (decimalText size))),
    ("ecryptfs_passthrough", answers.passthrough.map fun yes => some (answerText yes)),
    ("ecryptfs_hmac", answers.hmac.map fun yes => some (answerText yes)),
    ("ecryptfs_xattr", answers.xattr.map fun yes => some (answerText yes)),
    ("ecryptfs_encrypted_view", answers.encryptedView.map fun yes => some (answerText yes))]

/-- The names of the options. -/
def sslNames (way : SslWay) : List String :=
  ["verbosity", "key", "openssl_keyfile", way.option, "ecryptfs_cipher", "ecryptfs_key_bytes",
    "ecryptfs_passthrough", "ecryptfs_hmac", "ecryptfs_xattr", "ecryptfs_encrypted_view"]

variable {version : UInt32} {mods : List GraphModule} {opts : List NameValPair}
  {inputs : List (Except {rc : ℤ // rc < 0} CStr)} {env : OpensslEnv} {aliases : List CStr} {keyfile : CStr}
  {m : ℕ} {way : SslWay} {path v : CStr} {cipher : String} {size : ℕ} {answers : FeatureAnswers}

theorem sslTable_names : (sslTable way path v cipher size answers).map Prod.fst = sslNames way := rfl

theorem sslNames_once (way : SslWay) : (sslNames way).Nodup := by
  cases way <;> decide

/-- The queues of a mount. -/
def sslQueue (way : SslWay) (path v : CStr) (cipher : String) (size : ℕ) (answers : FeatureAnswers) (x : CStr) :
    List (Option CStr) :=
  (queue x (entries (sslTable way path v cipher size answers))).map fun v => some (printed v)

theorem sslQueue_given {name : String} (given : Option (Option CStr))
    (inTable : (name, given) ∈ sslTable way path v cipher size answers) :
    sslQueue way path v cipher size answers (lit name) = given.toList.map fun v => some (printed v) := by
  rw [sslQueue, queue_entries (sslTable_names ▸ sslNames_once way) given inTable]

theorem sslQueue_absent {name : String} (absent : name ∉ sslNames way) :
    sslQueue way path v cipher size answers (lit name) = [] := by
  rw [sslQueue, queue_entries_absent]
  · rfl
  · rw [sslTable_names]
    exact absent

theorem listed_ssl (given : opts.Perm (entries (sslTable way path v cipher size answers))) :
    Listed opts (opts.map NameValPair.name) (sslQueue way path v cipher size answers) := by
  have once : ((entries (sslTable way path v cipher size answers)).map NameValPair.name).Nodup :=
    entries_once (sslTable_names ▸ sslNames_once way)
  refine ⟨((given.map NameValPair.name).nodup_iff).mpr once, rfl, fun x => ?_, ?_⟩
  · rw [queue_perm given once]
    rfl
  · exact sslQueue_given (some (some (lit "0"))) (by simp [sslTable])

theorem named_ssl (given : opts.Perm (entries (sslTable way path v cipher size answers))) {x : CStr}
    (named : x ∈ opts.map NameValPair.name) : x ∈ (sslNames way).map lit := by
  rw [(given.map NameValPair.name).mem_iff, named_entries] at named
  obtain ⟨row, inTable, rfl, -⟩ := named
  rw [← @sslTable_names way path v cipher size answers]
  exact List.mem_map_of_mem (List.mem_map_of_mem inTable)

theorem unnamed_ssl (given : opts.Perm (entries (sslTable way path v cipher size answers))) {name : String}
    (absent : name ∉ sslNames way) : lit name ∉ opts.map NameValPair.name := by
  intro named
  obtain ⟨x, inside, same⟩ := List.mem_map.mp (named_ssl given named)
  exact absent (lit_inj.mp same ▸ inside)

/-! ## The way through the graph -/

/-- The key modules of a graph whose module number `m` is the OpenSSL module: it is the first one with its alias,
its alias leads to it, and no alias is the name of an option of the mount. -/
structure OpensslGraph (version : UInt32) (env : OpensslEnv) (aliases : List CStr) (keyfile : CStr) (m : ℕ)
    (mods : List GraphModule) : Prop where
  supported : supports version versioningPubkey = true
  confined : Confined mods
  module : mods[m]? = some (sslModule env aliases keyfile m)
  found : findModule aliases (lit "openssl") = some m
  first : ∀ i < m, ∀ g, mods[i]? = some g → g.trans.val ≠ some (lit "openssl")
  few : mods.length ≤ maxNumTransitions
  labels : ∀ g ∈ mods, ∀ l, g.trans.val = some l → ∀ way, l ∉ (sslNames way).map lit

/-- The selection of the OpenSSL module. -/
def sslSpec (m : ℕ) : KeySpec := ⟨m, lit "openssl", [], []⟩

/-- The world in which the module is entered: it has a context without a path. -/
def sslWorld (version : UInt32) (mods : List GraphModule) (m : ℕ) : MountWorld :=
  { selected (sslSpec m) (startWorld version mods) with ext := { foo := some ⟨m, []⟩ } }

/-- The queues behind the selection of the module. -/
def sslEntered (way : SslWay) (path v : CStr) (cipher : String) (size : ℕ) (answers : FeatureAnswers) :
    CStr → List (Option CStr) :=
  Function.update (sslQueue way path v cipher size answers) (lit "key") []

section

variable (graph : OpensslGraph version env aliases keyfile m mods)
  (given : opts.Perm (entries (sslTable way path v cipher size answers)))

include graph given in
theorem ssl_enters : Walks (mountCall (moduleCalls mods)) (opts.map NameValPair.name) .root
    (startWorld version mods) (sslQueue way path v cipher size answers) (.mod m 0) (sslWorld version mods m)
    (sslEntered way path v cipher size answers) := by
  have registered : Registered mods (sslSpec m) (sslModule env aliases keyfile m) :=
    ⟨graph.module, rfl, graph.first, by change lit "openssl" ≠ nullText; decide, graph.few⟩
  have noLabels : NoLabels mods (opts.map NameValPair.name) := by
    refine ⟨unnamed_ssl given (by cases way <;> decide), fun g registered l isLabel named => ?_⟩
    exact graph.labels g registered l isLabel way (named_ssl given named)
  refine enter_walks graph.confined registered
    (mountNodes_static graph.confined.linked (by decide) (by decide) (by simp))
    (mountNodes_select graph.confined.linked) noLabels (sslQueue_absent (by cases way <;> decide)) ?_
    (rfl : (sslModule env aliases keyfile m).trans.nextToken = some (.mod m 0)) (fun nvps _ => ?_) rfl
  · exact sslQueue_given (some (some (lit "openssl"))) (by simp [sslTable])
  · refine (transFunc_ssl graph.module 0 0 .select nvps _).trans ?_
    change enterLinearSubgraph aliases .select (selected (sslSpec m) (startWorld version mods)) = _
    have val : ((selected (sslSpec m) (startWorld version mods)).nodes .select).val = some (lit "openssl") :=
      congrArg ParamNode.val (World.nodes_setNode_self _ _ _)
    unfold enterLinearSubgraph
    rw [val]
    dsimp only
    rw [graph.found]
    rfl

theorem sslEntered_other {x : String} (other : x ≠ "key") : sslEntered way path v cipher size answers (lit x) =
    sslQueue way path v cipher size answers (lit x) :=
  Function.update_of_ne (fun same => other (lit_inj.mp same)) _ _

include given in
theorem ssl_given : SslGiven way path (some v) (opts.map NameValPair.name)
    (sslEntered way path v cipher size answers) := by
  have noKey : ∀ x ∈ way.option :: sslOptions, x ≠ "key" := by
    cases way <;> decide
  have absent : ∀ x ∈ sslOptions, x ≠ way.option → x ≠ "openssl_keyfile" → x ∉ sslNames way := by
    cases way <;> decide
  refine ⟨?_, ?_, fun x inside noOption noFile => ?_, fun x inside noOption noFile => ?_, ?_⟩
  · rw [sslEntered_other (by decide)]
    exact sslQueue_given (some (some path)) (by simp [sslTable])
  · rw [sslEntered_other (noKey _ List.mem_cons_self)]
    exact sslQueue_given (some (some v)) (by simp [sslTable])
  · rw [sslEntered_other (noKey x (List.mem_cons_of_mem _ inside))]
    exact sslQueue_absent (absent x inside noOption noFile)
  · exact unnamed_ssl given (absent x inside noOption noFile)
  · exact unnamed_ssl given (by cases way <;> decide)

/-- The queues behind the key. -/
theorem behindSsl_other {x : String} (noKey : x ≠ "key") (noFile : x ≠ "openssl_keyfile")
    (noOption : x ≠ way.option) : behindSsl way (sslEntered way path v cipher size answers) (lit x) =
      sslQueue way path v cipher size answers (lit x) := by
  unfold behindSsl
  rw [Function.update_of_ne fun same => noOption (lit_inj.mp same),
    Function.update_of_ne fun same => noFile (lit_inj.mp same), sslEntered_other noKey]

theorem behindSsl_absent {x : String} (absent : x ∉ sslNames way) :
    behindSsl way (sslEntered way path v cipher size answers) (lit x) = [] := by
  have other : ∀ y ∈ sslNames way, x ≠ y := fun y inside same => absent (same ▸ inside)
  rw [behindSsl_other (other _ (by simp [sslNames])) (other _ (by simp [sslNames]))
    (other _ (by simp [sslNames]))]
  exact sslQueue_absent absent

theorem behindSsl_key : behindSsl way (sslEntered way path v cipher size answers) (lit "key") = [] := by
  have other : lit "key" ≠ lit way.option := by
    cases way <;> simp [SslWay.option]
  unfold behindSsl sslEntered
  rw [Function.update_of_ne other, Function.update_of_ne (by simp), Function.update_self]

theorem ssl_tailOptions : TailOptions cipher size answers
    (behindSsl way (sslEntered way path v cipher size answers)) := by
  have other : ∀ x ∈ ["ecryptfs_cipher", "ecryptfs_key_bytes", "ecryptfs_passthrough", "ecryptfs_hmac",
      "ecryptfs_xattr", "ecryptfs_encrypted_view"],
      x ≠ "key" ∧ x ≠ "openssl_keyfile" ∧ x ≠ way.option := by
    cases way <;> decide
  have found : ∀ x ∈ ["ecryptfs_cipher", "ecryptfs_key_bytes", "ecryptfs_passthrough", "ecryptfs_hmac",
      "ecryptfs_xattr", "ecryptfs_encrypted_view"], ∀ given,
      (x, given) ∈ sslTable way path v cipher size answers →
      behindSsl way (sslEntered way path v cipher size answers) (lit x) =
        given.toList.map fun v => some (printed v) := by
    intro x inside given inTable
    obtain ⟨noKey, noFile, noOption⟩ := other x inside
    rw [behindSsl_other noKey noFile noOption, sslQueue_given given inTable]
  refine ⟨⟨?_, ?_, ?_⟩, ?_, ?_, fun n asked => ?_⟩
  · exact behindSsl_absent (by cases way <;> decide)
  · exact behindSsl_absent (by cases way <;> decide)
  · exact behindSsl_absent (by cases way <;> decide)
  · exact found _ (by simp) (some (some (lit cipher))) (by simp [sslTable])
  · exact found _ (by simp) (some (some (decimalText size))) (by simp [sslTable])
  · have answer : ∀ a : Option Bool, ((a.map fun yes => some (answerText yes)).toList.map
        fun v => some (printed v)) = answerQueue a := by
      intro a
      cases a <;> rfl
    simp only [askedFeatures, List.mem_cons, List.not_mem_nil, or_false] at asked
    rcases asked with rfl | rfl | rfl | rfl
    · exact (found _ (by simp [featureOption]) _ (by simp [sslTable, featureOption])).trans
        (answer answers.passthrough)
    · exact (found _ (by simp [featureOption]) _ (by simp [sslTable, featureOption])).trans
        (answer answers.hmac)
    · exact (found _ (by simp [featureOption]) _ (by simp [sslTable, featureOption])).trans
        (answer answers.xattr)
    · exact (found _ (by simp [featureOption]) _ (by simp [sslTable, featureOption])).trans
        (answer answers.encryptedView)

include graph in
theorem sslWorld_fresh : SslFresh keyfile m (sslWorld version mods m) := by
  intro k
  change (selected (sslSpec m) (startWorld version mods)).nodes (.mod m k) = _
  rw [selected_other (by simp) (by simp)]
  exact (mountNodes_module m k).trans (exitedNodes_ssl graph.confined.linked graph.module k)

/-! ## The evaluation -/

variable {pushed : List CStr} {min max : ℤ} {left : List (Option CStr)}

/-- The stack behind a mount whose key left `left` behind. -/
def sslStack (version : UInt32) (cipher : String) (size : ℕ) (answers : FeatureAnswers) (left : List (Option CStr)) :
    List (Option CStr) :=
  (featureParams version answers).reverse ++ param "ecryptfs_key_bytes=" (decimalText size) ::
    param "ecryptfs_cipher=" (lit cipher) :: left

include graph given in
/-- The way to the cipher, with what the key comes to on the stack. -/
theorem ssl_reaches (real : path ≠ nullText ∧ v ≠ nullText) (noLabel : path ≠ lit "default" ∧ v ≠ lit "default")
    (gives : way.Gives env m path v pushed) : ∃ w,
    Walks (mountCall (moduleCalls mods)) (opts.map NameValPair.name) .root (startWorld version mods)
      (sslQueue way path v cipher size answers) .cipher w
      (behindSsl way (sslEntered way path v cipher size answers)) ∧
    w.stack = pushed.reverse.map some ++ [none] ∧
    ∀ n, n ≠ .root → n ≠ .select → n ≠ .anotherKey → (∀ m k, n ≠ .mod m k) →
      w.nodes n = fillInVersionSupport version (exitedNodes mods) n := by
  obtain ⟨w', walks, stack, kept⟩ := @ssl_walks env aliases keyfile mods m _ _ (sslWorld version mods m) way path v
    ⟨m, []⟩ pushed graph.module (sslWorld_fresh graph) rfl (ssl_given given) real noLabel gives
  have start : ∀ n, n ≠ .root → n ≠ .select → (∀ m k, n ≠ .mod m k) →
      w'.nodes n = mountNodes version mods n := by
    intro n noRoot noSelect noModule
    refine (kept n fun ⟨m, k, same⟩ => noModule m k same).trans ?_
    exact selected_other noRoot noSelect
  have anotherKey : w'.nodes .anotherKey = staticNode .anotherKey :=
    (start _ (by decide) (by decide) (by simp)).trans
      (mountNodes_static graph.confined.linked (by decide) (by decide) (by simp))
  have absent : ∀ way, "default" ∉ sslNames way ∧ "another_key" ∉ sslNames way := by
    intro way
    cases way <;> decide
  have leave := @leave_walks mods _ (behindSsl way (sslEntered way path v cipher size answers)) w' anotherKey
    (unnamed_ssl given (absent way).1) (behindSsl_absent (absent way).2) behindSsl_key
  refine ⟨_, (ssl_enters graph given).trans (walks.trans leave), stack, fun n noRoot noSelect noAnother noModule => ?_⟩
  exact (setFirstNext_other noAnother).trans (start n noRoot noSelect noModule)

include given in
theorem ssl_unnamed : ∀ l ∈ tailLabels, l ∉ opts.map NameValPair.name := by
  have table : ∀ l ∈ tailLabels, l ∉ (sslNames way).map lit := by
    cases way <;> decide
  exact fun l among named => table l among (named_ssl given named)

include graph given in
/-- **A mount with an OpenSSL key** succeeds exactly when the version mask has a feature and the limits that the
key sets admit the key size. -/
theorem openssl_processed (real : path ≠ nullText ∧ v ≠ nullText)
    (noLabel : path ≠ lit "default" ∧ v ≠ lit "default") (gives : way.Gives env m path v pushed)
    (known : cipher ∈ cipherDescriptors) (supported : (cipher, size) ∈ supportedKeyBytes)
    (scanned : scanKeyBytes (pushed.reverse.map some ++ [none]) 0 999999 = .ok ⟨0, left, min, max⟩)
    (stack : List (Option CStr)) :
    Processed version mods opts inputs 0 stack ↔
      HasFeature version ∧ (cipher, size) ∈ keyBytesBetween min max ∧
        stack = sslStack version cipher size answers left := by
  obtain ⟨w, walks, onStack, fresh⟩ := @ssl_reaches version mods opts env aliases keyfile m way path v cipher size
    answers graph given pushed real noLabel gives
  have static := static_exited graph.confined.linked
  rw [← onStack] at scanned
  by_cases between : (cipher, size) ∈ keyBytesBetween min max
  · obtain ⟨w', ends, pushed⟩ := @tail_ends_between _ _ w mods version _ answers cipher size min max left static known
      between (ssl_unnamed given) fresh scanned ssl_tailOptions
    rw [processed_iff (listed_ssl given) (walks.ends ends), pushed, and_iff_right between]
    by_cases feature : HasFeature version
    · rw [if_neg fun noFeature => featureChain_eq_nil.mp noFeature feature, and_iff_right feature,
        chain_params, show evalResult nullTok = 0 from rfl, and_iff_right rfl]
      exact eq_comm
    · rw [if_pos (featureChain_eq_nil.mpr feature)]
      exact iff_of_false (fun both => absurd both.1 (by decide)) fun both => feature both.1
  · obtain ⟨w', ends⟩ := @tail_fails _ _ w mods version _ answers cipher size min max left static known supported
      between (ssl_unnamed given) fresh scanned ssl_tailOptions
    rw [processed_iff (listed_ssl given) (walks.ends ends)]
    refine iff_of_false (fun both => ?_) fun both => between both.2.1
    have failed := both.1
    split_ifs at failed <;> exact absurd failed (by decide)

end

/-! ## Keys in files -/

/-- A file that holds the passphrase `P`: one line has it under its name, and no other line has that name.  The file is
read piece by piece, and there is a zero byte behind its contents in the buffer. -/
structure PassphraseStore (P : CStr) where
  heap : Heap
  chunks : List CStr
  kind : FileKind
  bufSize : ℕ
  some_ : P ≠ []
  line : OptionLine (lit "openssl_passwd") P
  text : ValueText [lit "openssl_passwd"] (lit "openssl_passwd") P chunks.flatten
  readable : Readable chunks kind bufSize
  behind : byteBehind heap chunks bufSize = some 0

/-- What `parse_options_file` comes to for the file. -/
def PassphraseStore.parse {P : CStr} (store : PassphraseStore P) : Option (ℤ × List NameValPair) :=
  parseOptionsFd store.heap (fun _ => true) (some store.kind) (store.chunks.map .bytes)

/-- The passphrase is the first entry with its name. -/
theorem PassphraseStore.parse_eq {P : CStr} (store : PassphraseStore P) : ∃ list, store.parse = some (0, list) ∧
    list.find? (fun e => e.name = lit "openssl_passwd") = some ⟨lit "openssl_passwd", some P, false⟩ := by
  obtain ⟨list, parsed, found⟩ := valueText_read (List.mem_singleton_self _) store.some_ store.line store.text
  simp only [List.mem_singleton] at found
  exact ⟨list, (parseOptionsFd_zero store.readable store.behind).trans (congrArg some parsed), found⟩

/-- The ways by which the passphrase `P` is read: its text, or the path of a file that holds it. -/
def SslWay.Reads (passwdFile : CStr → Option (ℤ × List NameValPair)) (v P : CStr) : SslWay → Prop
  | .passwd => v = P
  | .file => ∃ store : PassphraseStore P, passwdFile v = store.parse
  | .fd => False

section

variable {lib : Openssl} {calls : MountCalls} {files : KeyFiles} {ring : TokenRing}
  {passwdFile passwdFd : CStr → Option (ℤ × List NameValPair)} {P : NulFree} {pathText : NulFree}

/-- The graph with the OpenSSL module only. -/
theorem opensslGraph_only (supported : supports version versioningPubkey = true) (env : OpensslEnv)
    (keyfile : CStr) : OpensslGraph version env [lit "openssl"] keyfile 0
      [sslModule env [lit "openssl"] keyfile 0] := by
  refine ⟨supported, confined_ssl env _ keyfile, rfl, by decide, fun i low => absurd low (Nat.not_lt_zero i),
    (by decide : 1 ≤ maxNumTransitions), fun g registered l isLabel way => ?_⟩
  rw [List.mem_singleton.mp registered] at isLabel
  obtain rfl := Option.some.inj isLabel
  cases way <;> decide

@[irreducible] def wideModulus : ℕ := 2 ^ 1023

/-- The library with a key of 128 bytes. -/
def wideOpenssl : Openssl := { paddingOpenssl with n := fun _ => wideModulus }

theorem rsaSize_wide (rsa : wideOpenssl.Rsa) : wideOpenssl.rsaSize rsa = 128 := by
  show bytesOfBits (Nat.size wideModulus) = 128
  rw [show wideModulus = 2 ^ 1023 by unfold wideModulus; rfl, Nat.size_pow]
  rfl

/-- The text of a file with the passphrase `p`, below another option. -/
def storeText : CStr := lit "user=u\nopenssl_passwd=p\n"

/-- The file, which is read in one piece. -/
def passphraseStore : PassphraseStore paddingPassphrase.1 where
  heap := evenHeap 0
  chunks := [storeText]
  kind := .other 24
  bufSize := 24
  some_ := by decide
  line := ⟨by decide, by decide, by decide +kernel, by decide, by decide⟩
  text := by
    refine ⟨by decide, [lit "user=u"], [[]], by decide, fun line among => ?_⟩
    simp only [List.singleton_append, List.mem_cons, List.not_mem_nil, or_false] at among
    rcases among with rfl | rfl
    · have line : OptionLine (lit "user") (lit "u") :=
        ⟨by decide, by decide, by decide +kernel, by decide, by decide⟩
      exact .inr ⟨lit "user", lit "u", by decide, line, by decide⟩
    · exact .inl rfl
  readable := by
    have whole : [storeText].flatten = storeText := List.flatten_singleton
    have size : storeText.length = 24 := by decide
    refine ⟨.inr ?_, ⟨by decide, by decide, trivial⟩, by decide, by decide⟩
    rw [whole, size]
    exact ⟨rfl, rfl⟩
  behind := byteBehind_evenHeap 0 _ 24

/-- The module when every file of a key holds it under the passphrase `p`, and every other file is the one above. -/
def wideModule : GraphModule :=
  sslModule (mountEnv wideOpenssl readyMount (fun _ => some [112]) (fun _ => none) (fun _ => passphraseStore.parse)
    fun _ => none) [lit "openssl"] (lit "/home/u/.ecryptfs/pki/openssl/key.pem") 0

end

/-! ## Descriptors -/

theorem signatures_sslStack (version : UInt32) (cipher : String) (size : ℕ) (answers : FeatureAnswers) :
    signatures (sslStack version cipher size answers [none]) = [] := by
  have features := signatures_features version answers
  have others : signatures [param "ecryptfs_key_bytes=" (decimalText size), param "ecryptfs_cipher=" (lit cipher),
      none] = [] := by
    rw [signatures_cons, isSignature_keyBytes, signatures_cons, isSignature_cipher]
    rfl
  unfold sslStack
  unfold signatures at features others ⊢
  rw [List.filter_append, List.filter_reverse, features, others]
  rfl

/-- **By a descriptor there is no key.**  Whatever descriptor is given, the evaluation succeeds when the version mask
has a feature, as it does with a key, and what it leaves on the stack has no signature. -/
theorem openssl_fd_iff (graph : OpensslGraph version env aliases keyfile m mods)
    (given : opts.Perm (entries (sslTable .fd path v cipher size answers)))
    (known : cipher ∈ cipherDescriptors) (supported : (cipher, size) ∈ supportedKeyBytes)
    (real : path ≠ nullText ∧ v ≠ nullText) (noLabel : path ≠ lit "default" ∧ v ≠ lit "default") :
    ((∃ stack, Processed version mods opts inputs 0 stack) ↔ HasFeature version) ∧
      ∀ stack, Processed version mods opts inputs 0 stack →
        stack = sslStack version cipher size answers [none] ∧ signatures stack = [] := by
  have gives : SslWay.Gives env m path v [] .fd := rfl
  have scanned : scanKeyBytes (([] : List CStr).reverse.map some ++ [none]) 0 999999 =
      .ok ⟨0, [none], 0, 999999⟩ := rfl
  have processed := fun stack => @openssl_processed version mods opts inputs env aliases keyfile m .fd path v cipher
    size answers graph given [] 0 999999 [none] real noLabel gives known supported scanned stack
  have allowed : (cipher, size) ∈ keyBytesBetween 0 999999 := keyBytesBetween_all.symm ▸ supported
  refine ⟨⟨fun ⟨stack, done⟩ => ((processed stack).mp done).1, fun feature =>
    ⟨_, (processed _).mpr ⟨feature, allowed, rfl⟩⟩⟩, fun stack done => ?_⟩
  obtain ⟨-, -, rfl⟩ := (processed stack).mp done
  exact ⟨rfl, signatures_sslStack version cipher size answers⟩

theorem openssl_fd_wide : Processed 0x6 [wideModule]
    (entries (sslTable .fd paddingPath.1 (lit "7") "aes" 16 sampleAnswers)) [] 0
      (sslStack 0x6 "aes" 16 sampleAnswers [none]) := by
  have graph : OpensslGraph 0x6 _ [lit "openssl"] _ 0 [wideModule] := opensslGraph_only rfl _ _
  have both := @openssl_fd_iff 0x6 [wideModule]
    (entries (sslTable .fd paddingPath.1 (lit "7") "aes" 16 sampleAnswers)) [] _ _ _ 0 paddingPath.1 (lit "7") "aes"
    16 sampleAnswers graph (.refl _) (by decide) (by decide) (by decide) (by decide)
  obtain ⟨stack, done⟩ := both.1.mpr ⟨versioningPlaintextPassthrough, by decide, rfl⟩
  obtain ⟨rfl, -⟩ := both.2 stack done
  exact done

end Ecryptfs
