import Ecryptfs.Graph.Build

/-!
# The mount graph

The nodes of the decision graph that `mount.ecryptfs` evaluates, and the callbacks on their
transitions.  The nodes of the key modules hang below `select`; behind the keys come the cipher, the
key size, and one node for each feature that the version mask of the kernel announces.  Several
callbacks rewrite the graph while it is being evaluated: `sigCallback` and `anotherKeyCallback` set
the way out of the key selection, and the two nodes of filename encryption splice each other in.
-/

namespace Ecryptfs

/-- The names of the nodes of the mount graph; `mod m k` is node number `k` of key module `m`. -/
inductive NodeId where
  | root
  | select
  | cipher
  | keyBytes
  | versionSupport
  | passthrough
  | hmac
  | xattr
  | encryptedPassthrough
  | fnekSig
  | enableFilenameCrypto
  | anotherKey
  | end_
  | dummy
  | mod (m k : ℕ)
  deriving DecidableEq

/-- The names of the callbacks; `mod m c` is callback number `c` of key module `m`. -/
inductive Callback where
  | sig
  | hmac
  | passthrough
  | xattr
  | encryptedPassthrough
  | fnekSig
  | enableFilenameCrypto
  | keyBytes
  | cipher
  | anotherKey
  | mod (m c : ℕ)
  deriving DecidableEq

/-- `struct ecryptfs_subgraph_ctx`: the key module and the values collected for it. -/
structure SubgraphCtx where
  keyMod : ℕ
  vals : List CStr

/-- The further state of the callbacks: the pointer `foo`, unless it is null or what it points to is
freed, and the parameter values handed to the key modules. -/
structure MountExt where
  foo : Option SubgraphCtx := none
  paramVals : ℕ → List CStr := fun _ => []

abbrev MountNode := ParamNode NodeId Callback
abbrev MountWorld := World NodeId Callback MountExt
abbrev MountState := EvalState NodeId Callback MountExt
abbrev MountCallbacks := Callbacks NodeId Callback MountExt

/-! ## Versions -/

def versioningPassphrase : UInt32 := 0x1
def versioningPlaintextPassthrough : UInt32 := 0x4
def versioningXattr : UInt32 := 0x10
def versioningHmac : UInt32 := 0x80
def versioningFilenameEncryption : UInt32 := 0x100

/-- The functions `ecryptfs_supports_*` of a version mask. -/
def supports (version feature : UInt32) : Bool := version &&& feature ≠ 0

/-! ## Nodes -/

/-- A transition that is taken by default. -/
def defaultTransition (next : Option NodeId) (f : Option Callback) :
    TransitionNode NodeId Callback :=
  ⟨some (lit "default"), next, f⟩

/-- A node that asks for one feature by yes or no. -/
def featureNode (name : String) (defaultVal : Option CStr) (f : Callback) : MountNode where
  mntOptNames := [name]
  defaultVal := defaultVal
  flags := { echoInput := true }
  tl := [defaultTransition (some .end_) (some f)]

/-- The static nodes, as the sources initialize them. -/
def staticNode : NodeId → MountNode
  | .root =>
    { mntOptNames := ["sig"]
      defaultVal := some (lit "NULL")
      flags := { noValue := true, noAutoTransition := true }
      tl := [defaultTransition (some .cipher) (some .sig)] }
  | .select =>
    { mntOptNames := ["key"]
      flags := { displayTransitionNodeVals := true, echoInput := true } }
  | .cipher =>
    { mntOptNames := ["ecryptfs_cipher"]
      flags :=
        { displayTransitionNodeVals := true, displayPrettyVals := true, echoInput := true } }
  | .keyBytes =>
    { mntOptNames := ["ecryptfs_key_bytes"]
      flags :=
        { displayTransitionNodeVals := true, forceDisplayNodes := true, echoInput := true } }
  | .versionSupport =>
    { mntOptNames := ["end"]
      flags := { noValue := true }
      tl := [defaultTransition none none] }
  | .passthrough => featureNode "ecryptfs_passthrough" none .passthrough
  | .hmac => featureNode "ecryptfs_hmac" none .hmac
  | .xattr => featureNode "ecryptfs_xattr" (some (lit "n")) .xattr
  | .encryptedPassthrough =>
    featureNode "ecryptfs_encrypted_view" (some (lit "n")) .encryptedPassthrough
  | .fnekSig =>
    { mntOptNames := ["ecryptfs_fnek_sig"]
      flags := { noValue := true, noAutoTransition := true }
      tl := [defaultTransition (some .end_) (some .fnekSig)] }
  | .enableFilenameCrypto =>
    { mntOptNames := ["ecryptfs_enable_filename_crypto"]
      flags := { echoInput := true }
      tl := [defaultTransition (some .fnekSig) (some .enableFilenameCrypto)] }
  | .anotherKey =>
    { mntOptNames := ["another_key"]
      defaultVal := some (lit "NULL")
      flags := { noValue := true, noAutoTransition := true }
      tl := [defaultTransition (some .cipher) (some .anotherKey)] }
  | .end_ => { mntOptNames := ["end"], flags := { noValue := true } }
  | .dummy => { mntOptNames := ["dummy"], flags := { noValue := true } }
  | .mod _ _ => { mntOptNames := [] }

/-- `supported_key_bytes`, in the order of the table. -/
def supportedKeyBytes : List (String × ℕ) :=
  [("aes", 16), ("aes", 32), ("aes", 24), ("anubis", 16), ("anubis", 32), ("des3_ede", 24),
    ("serpent", 16), ("serpent", 32), ("tnepres", 16), ("tnepres", 32), ("tea", 16), ("xeta", 16),
    ("xtea", 16), ("cast5", 16), ("cast6", 16), ("cast6", 32), ("twofish", 16), ("twofish", 32),
    ("blowfish", 16), ("blowfish", 32), ("blowfish", 56), ("khazad", 16), ("arc4", 16),
    ("arc4", 32)]

/-- The names of `cipher_descriptors`. -/
def cipherDescriptors : List String := ["aes", "blowfish", "des3_ede", "twofish", "cast6", "cast5"]

/-- `init_ecryptfs_cipher_param_node`: one transition for each cipher, the first one suggested. -/
def initCipherNode (node : MountNode) : MountNode :=
  { node with
    tl := node.tl ++ cipherDescriptors.map fun name =>
      ⟨some (lit name), some .keyBytes, some .cipher⟩
    suggestedVal := node.suggestedVal.or (some (lit "aes")) }

/-- The nodes of the features that a version mask supports, in their order. -/
def featureChain (version : UInt32) : List NodeId :=
  (if supports version versioningPlaintextPassthrough then [.passthrough] else []) ++
    (if supports version versioningHmac then [.hmac] else []) ++
    (if supports version versioningXattr then [.xattr, .encryptedPassthrough] else []) ++
    (if supports version versioningFilenameEncryption then [.fnekSig] else [])

/-- The loop-free chain of `last_param_node`: each node leads to the next one of the list. -/
def chainNodes : NodeId → List NodeId → (NodeId → MountNode) → NodeId → MountNode
  | _, [], nodes => nodes
  | last, n :: rest, nodes => chainNodes n rest (setNextTokens nodes last n)

/-- `fill_in_decision_graph_based_on_version_support`, after the exits of the key modules are set:
the ciphers, and the chain of the features behind the node `version_support`. -/
def fillInVersionSupport (version : UInt32) (nodes : NodeId → MountNode) : NodeId → MountNode :=
  let nodes := Function.update nodes .cipher (initCipherNode (nodes .cipher))
  let nodes :=
    if supports version versioningPlaintextPassthrough then
      Function.update nodes .passthrough
        { nodes .passthrough with suggestedVal := some (lit "n") }
    else nodes
  let nodes :=
    if supports version versioningFilenameEncryption then
      Function.update nodes .enableFilenameCrypto
        { nodes .enableFilenameCrypto with suggestedVal := some (lit "n") }
    else nodes
  chainNodes .versionSupport (featureChain version) nodes

/-! ## Callbacks -/

/-- A callback that only looks at its node and the world. -/
abbrev NodeCallback := NodeId → MountWorld → Except Stop (ℤ × MountWorld)

/-- The first transition of a node gets another next node. -/
def setFirstNext (w : MountWorld) (n : NodeId) (next : Option NodeId) : MountWorld :=
  w.modify n fun node => { node with tl := node.tl.modifyHead fun tn => { tn with nextToken := next } }

/-- The next node of the first transition. -/
def firstNext (w : MountWorld) (n : NodeId) : Option NodeId := nextToken w n 0

def clearVal (w : MountWorld) (n : NodeId) : MountWorld :=
  w.modify n fun node => { node with val := none }

/-- The text of a mount parameter with a value. -/
def param (name : String) (value : CStr) : Option CStr := some (lit name ++ value)

/-- `sig_param_node_callback`. -/
def sigCallback : NodeCallback := fun n w =>
  match (w.nodes n).val with
  | none => .ok (0, setFirstNext w n (some .select))
  | some v =>
    if v = lit "NULL" then .ok (0, setFirstNext w n (some .select))
    else .ok (0, w.push (param "ecryptfs_sig=" v))

/-- `is_yes`. -/
def isYes (str : Option CStr) (onNull : ℤ) : ℤ :=
  match str with
  | none => onNull
  | some s =>
    if s = lit "y" ∨ s = lit "yes" then 1
    else if s = lit "no" ∨ s = lit "n" then 0
    else -1

/-- `stack_push_if_yes`, the common body of the callbacks of the features. -/
def stackPushIfYes (optName : String) : NodeCallback := fun n w =>
  let node := w.nodes n
  let rc := isYes node.val 0
  if rc = 1 ∨ node.flags.parameterSet then .ok (0, clearVal (w.push (some (lit optName))) n)
  else .ok (if rc = -1 then wrongValue else rc, clearVal w n)

def getHmac : NodeCallback := stackPushIfYes "ecryptfs_hmac"
def getPassthrough : NodeCallback := stackPushIfYes "ecryptfs_passthrough"
def getXattr : NodeCallback := stackPushIfYes "ecryptfs_xattr_metadata"
def getEncryptedPassthrough : NodeCallback := stackPushIfYes "ecryptfs_encrypted_view"

/-- `filename_crypto_fnek_sig_callback`: without a signature the node that asks for filename
encryption is spliced in behind this one. -/
def fnekSigCallback : NodeCallback := fun n w =>
  let splice : MountWorld :=
    let w := w.modify n fun node => { node with flags := { echoInput := true } }
    let w := setFirstNext w .enableFilenameCrypto (firstNext w n)
    setFirstNext w n (some .enableFilenameCrypto)
  match (w.nodes n).val with
  | none => .ok (0, splice)
  | some v =>
    if v = lit "NULL" then .ok (0, splice)
    else .ok (0, w.push (param "ecryptfs_fnek_sig=" v))

/-- The signature of the first `ecryptfs_sig=` on the stack; the sentinel is compared through a null
pointer. -/
def stackSig : List (Option CStr) → Except Stop (Option CStr)
  | [] => .ok none
  | none :: _ => .error .fault
  | some v :: rest =>
    if (lit "ecryptfs_sig=").isPrefixOf v then .ok (some (v.drop 13)) else stackSig rest

/-- `get_enable_filename_crypto`: on yes the signature node is spliced in again. -/
def getEnableFilenameCrypto : NodeCallback := fun n w =>
  let yn := isYes (w.nodes n).val 0
  if 0 < yn ∨ (w.nodes n).flags.parameterSet then
    let w := w.modify .fnekSig fun node =>
      { node with tl := node.tl.map fun tn => { tn with nextToken := firstNext w n } }
    let w := setFirstNext w n (some .fnekSig)
    match stackSig w.stack with
    | .error e => .error e
    | .ok none => .ok (0, clearVal w n)
    | .ok (some v) =>
      .ok (0, clearVal (w.modify .fnekSig fun node => { node with suggestedVal := some v }) n)
  else .ok (if yn < 0 then wrongValue else 0, clearVal w n)

/-- `tf_ecryptfs_key_bytes`. -/
def tfKeyBytes : NodeCallback := fun n w =>
  .ok (0, clearVal (w.push (param "ecryptfs_key_bytes=" (printed (w.nodes n).val))) n)

/-- An `int` compared with an unsigned number. -/
def toUnsigned (z : ℤ) : ℕ := (z % 2 ^ 32).toNat

/-- The limit that a stack entry with the given name sets: no limit, one that is no number, or a
number. -/
def keyBytesLimit (name : String) (v : CStr) : Except ℤ (Option ℤ) :=
  if strstr v (lit name) then
    match afterChar 61 v with
    | none => .ok none
    | some text =>
      match strtol text with
      | none => .error (-einval)
      | some z => .ok (some z)
  else .ok none

/-- What the loop of `tf_ecryptfs_cipher` leaves of the stack, the limits it found, and a negative
code where it met a limit that is no number. -/
structure KeyBytesScan where
  rc : ℤ
  stack : List (Option CStr)
  min : ℤ
  max : ℤ

/-- The loop of `tf_ecryptfs_cipher` over the stack.  An entry that sets a limit is taken off the
stack, and the entry after it is passed over; behind the last one there is none to pass over. -/
def scanKeyBytes : List (Option CStr) → ℤ → ℤ → Except Stop KeyBytesScan
  | [], min, max => .ok ⟨0, [], min, max⟩
  | v :: rest, min, max =>
    match keyBytesLimit "max_key_bytes=" (v.getD []), keyBytesLimit "min_key_bytes=" (v.getD []) with
    | .error rc, _ => .ok ⟨rc, v :: rest, min, max⟩
    | _, .error rc => .ok ⟨rc, v :: rest, min, max⟩
    | .ok none, .ok none =>
      (scanKeyBytes rest min max).map fun scan => { scan with stack := v :: scan.stack }
    | .ok newMax, .ok newMin =>
      match rest with
      | [] => .error .fault
      | u :: rest => (scanKeyBytes rest (newMin.getD min) (newMax.getD max)).map fun scan =>
          { scan with stack := u :: scan.stack }

/-- The sizes of the table between two limits. -/
def keyBytesBetween (min max : ℤ) : List (String × ℕ) :=
  supportedKeyBytes.filter fun e => toUnsigned min ≤ e.2 ∧ e.2 ≤ toUnsigned max

/-- `init_ecryptfs_key_bytes_param_node`: one more transition of the key-bytes node for each size of
the cipher.  A null name is only compared with the sizes that respect the limits. -/
def initKeyBytesNode (cipherName : Option CStr) (min max : ℤ) (node : MountNode) :
    Except Stop (Except ℤ MountNode) :=
  let found : Except Stop (List ℕ) :=
    match cipherName with
    | none => if keyBytesBetween min max = [] then .ok [] else .error .fault
    | some name => .ok (((keyBytesBetween min max).filter fun e => lit e.1 = name).map Prod.snd)
  match found with
  | .error e => .error e
  | .ok sizes =>
    let node := { node with
      tl := node.tl ++ sizes.map fun n =>
        ⟨some (decimalText n), some .versionSupport, some .keyBytes⟩
      suggestedVal := node.suggestedVal.or (sizes.head?.map decimalText) }
    if node.tl = [] then .ok (.error (-einval)) else .ok (.ok node)

/-- `tf_ecryptfs_cipher`. -/
def tfCipher : NodeCallback := fun n w =>
  match scanKeyBytes w.stack 0 999999 with
  | .error e => .error e
  | .ok scan =>
    let w := { w with stack := scan.stack }
    if scan.rc ≠ 0 then .ok (scan.rc, w)
    else
      let name := (w.nodes n).val
      match initKeyBytesNode name scan.min scan.max (w.nodes .keyBytes) with
      | .error e => .error e
      | .ok (.error rc) => .ok (rc, w)
      | .ok (.ok node) => .ok (0,
          (clearVal (w.setNode .keyBytes node) n).push (param "ecryptfs_cipher=" (printed name)))

/-- Whether the value of a list entry is the value of one of the transitions; null pointers are
compared as well. -/
def matchesKeyModule (value : Option CStr) :
    List (TransitionNode NodeId Callback) → Except Stop Bool
  | [] => .ok false
  | tn :: tl =>
    match value, tn.val with
    | some v, some u => if v = u then .ok true else matchesKeyModule value tl
    | _, _ => .error .fault

/-- The loop of `another_key_param_node_callback`: is there an entry `key` that was not processed and
names a key module? -/
def findAnotherKey (tl : List (TransitionNode NodeId Callback)) :
    List NameValPair → Except Stop Bool
  | [] => .ok false
  | e :: es =>
    if e.processed ∨ e.name ≠ lit "key" then findAnotherKey tl es
    else
      match matchesKeyModule e.value tl with
      | .error stop => .error stop
      | .ok true => .ok true
      | .ok false => findAnotherKey tl es

/-- `another_key_param_node_callback`. -/
def anotherKeyCallback (nvps : List NameValPair) : NodeCallback := fun n w =>
  match findAnotherKey (w.nodes .select).tl nvps with
  | .error stop => .error stop
  | .ok found => .ok (0, setFirstNext w n (some (if found then .select else .cipher)))

/-- The callbacks of the mount graph, with those of the key modules. -/
def mountCall (mods : ℕ → ℕ → NodeId → List NameValPair → MountWorld →
    Except Stop (ℤ × MountWorld)) : MountCallbacks
  | .sig, n, _, w => sigCallback n w
  | .hmac, n, _, w => getHmac n w
  | .passthrough, n, _, w => getPassthrough n w
  | .xattr, n, _, w => getXattr n w
  | .encryptedPassthrough, n, _, w => getEncryptedPassthrough n w
  | .fnekSig, n, _, w => fnekSigCallback n w
  | .enableFilenameCrypto, n, _, w => getEnableFilenameCrypto n w
  | .keyBytes, n, _, w => tfKeyBytes n w
  | .cipher, n, _, w => tfCipher n w
  | .anotherKey, n, nvps, w => anotherKeyCallback nvps n w
  | .mod m c, n, nvps, w => mods m c n nvps w

end Ecryptfs
