import Ecryptfs.Lib.Memory
import Ecryptfs.Mount.Graph
import Ecryptfs.Passphrase.Signature

/-!
# Key modules in the mount graph

A key module takes part in the mount graph by a transition from `select` into nodes of its own.  The
passphrase module brings such a subgraph along (`passphraseModule`); for a module that only lists its
parameters a chain of nodes is built (`linearModule`).  What the modules use of the outside (NSS, the
keyring, files) is collected in `MountEnv`.
-/

namespace Ecryptfs

open Memory

/-- What the callbacks of the key modules use of the outside: NSS; the code of
`ecryptfs_add_auth_tok_to_keyring` for a signature; the code and the list of `parse_options_file`
for the file of a path or of a descriptor, a file that cannot be opened having a negative code; the
memory behind the text of a salt; and the code and the signature of
`ecryptfs_add_key_module_key_to_keyring` for a module and its parameter values. -/
structure MountEnv where
  nss : Nss
  addAuthTok : CStr → ℤ
  passFile : CStr → ℤ × List NameValPair
  passFd : CStr → ℤ × List NameValPair
  behindSalt : Bytes
  addModuleKey : ℕ → List CStr → ℤ × CStr

/-- An environment in which every call succeeds. -/
def plainEnv : MountEnv where
  nss :=
    { sha512 := fun _ => .replicate 64 0
      hashOk := fun _ => true
      importSymKey := fun _ => true
      encrypt := fun _ input => some input
      encryptFinal := fun _ => some []
      decrypt := fun _ input => some input
      decryptFinal := fun _ => some [] }
  addAuthTok := fun _ => 0
  passFile := fun _ => (0, [])
  passFd := fun _ => (0, [])
  behindSalt := fun _ => 0
  addModuleKey := fun _ _ => (0, [])

/-- A key module of the mount graph: the transition into its nodes, the nodes, and their
callbacks. -/
structure GraphModule where
  trans : TransitionNode NodeId Callback
  nodes : ℕ → MountNode
  call : ℕ → NodeId → List NameValPair → MountWorld → Except Stop (ℤ × MountWorld)

/-! ## The passphrase module -/

def defaultSaltHex : CStr := "0011223344556677"

/-- `from_hex`: a salt out of the text at a pointer. -/
def fromHex (src : Bytes) : Salt :=
  Vector.ofFn fun x : Fin 8 =>
    UInt8.ofNat (strtolHex (([src (2 * x), src (2 * x + 1)] : CStr).takeWhile (· ≠ 0)) % 256).toNat

/-- `ecryptfs_add_passphrase_key_to_keyring`: its code, and the signature. -/
def addPassphraseKey (env : MountEnv) (passphrase : CStr) (salt : Salt) : ℤ × CStr :=
  match generatePassphraseSig env.nss salt passphrase with
  | .error rc => (if rc < 0 then rc else -rc, [])
  | .ok s => (env.addAuthTok s.sig, s.sig)

/-- `tf_passwd`. -/
def tfPasswd : NodeCallback := fun n w =>
  match (w.nodes n).val with
  | none => .ok (-einval, w)
  | some v => .ok (defaultTok, clearVal (w.push (some v)) n)

/-- The part of `tf_pass_file` after the file is parsed. -/
def passFromFile (result : ℤ × List NameValPair) (n : NodeId) (w : MountWorld) :
    ℤ × MountWorld :=
  if result.1 ≠ 0 then (result.1, clearVal w n)
  else
    match result.2.find? fun e => e.name = lit "passphrase_passwd" ∨ e.name = lit "passwd" with
    | none => (mountError, clearVal w n)
    | some e => (0, clearVal (w.push (some (printed e.value))) n)

/-- `tf_pass_file`: opening a null path fails, a null text of a descriptor is dereferenced. -/
def tfPassFile (env : MountEnv) : NodeCallback := fun n w =>
  let node := w.nodes n
  if node.mntOptNames.head? = some (lit "passphrase_passwd_file") then
    match node.val with
    | none => .ok (-efault, clearVal w n)
    | some path => .ok (passFromFile (env.passFile path) n w)
  else if node.mntOptNames.head? = some (lit "passphrase_passwd_fd") then
    match node.val with
    | none => .error .fault
    | some fd => .ok (passFromFile (env.passFd fd) n w)
  else .ok (mountError, clearVal w n)

/-- `tf_salt`: the passphrase is the entry on top of the stack; there has to be one. -/
def tfSalt (env : MountEnv) : NodeCallback := fun n w =>
  let saltHex := match (w.nodes n).val with
    | some v => v
    | none => printed (w.nodes n).defaultVal
  let w := clearVal w n
  match w.stack with
  | some passwd :: rest =>
    let w := { w with stack := rest }
    let salt := fromHex (holding (saltHex ++ [0]) env.behindSalt)
    match addPassphraseKey env passwd salt with
    | (rc, sig) =>
      if rc < 0 then .ok (rc, w) else .ok (defaultTok, w.push (param "ecryptfs_sig=" sig))
  | _ => .error .fault

/-- The nodes of the passphrase module, as module number `m`. -/
def passphraseNode (m : ℕ) : ℕ → MountNode
  | 0 =>
    { mntOptNames := ["passphrase_type"]
      defaultVal := some (lit "passphrase_passwd")
      flags :=
        { noValue := true, allowImplicitTransition := true, implicitOverrideDefault := true }
      tl := [⟨some (lit "passphrase_passwd"), some (.mod m 1), none⟩,
        ⟨some (lit "passphrase_passwd_file"), some (.mod m 2), none⟩,
        ⟨some (lit "passphrase_passwd_fd"), some (.mod m 3), none⟩] }
  | 1 =>
    { mntOptNames := ["passphrase_passwd", "passwd"]
      flags := { maskOutput := true, nonemptyValueRequired := true }
      tl := [⟨some (lit "passphrase_salt"), some (.mod m 4), some (.mod m 0)⟩,
        ⟨some (lit "default"), some (.mod m 4), some (.mod m 0)⟩] }
  | 2 =>
    { mntOptNames := ["passphrase_passwd_file", "passfile"]
      flags := { echoInput := true, nonemptyValueRequired := true }
      tl := [⟨some (lit "passphrase_salt"), some (.mod m 4), some (.mod m 1)⟩,
        ⟨some (lit "default"), some (.mod m 4), some (.mod m 1)⟩] }
  | 3 =>
    { mntOptNames := ["passphrase_passwd_fd", "passfd"]
      flags := { echoInput := true, nonemptyValueRequired := true }
      tl := [⟨some (lit "salt"), some (.mod m 4), some (.mod m 1)⟩,
        ⟨some (lit "default"), some (.mod m 4), some (.mod m 1)⟩] }
  | 4 =>
    { mntOptNames := ["passphrase_salt", "salt"]
      defaultVal := some defaultSaltHex
      tl := [⟨none, none, some (.mod m 2)⟩] }
  | _ => { mntOptNames := [] }

/-- The passphrase module, as module number `m`. -/
def passphraseModule (env : MountEnv) (m : ℕ) : GraphModule where
  trans := ⟨some (lit "passphrase"), some (.mod m 0), none⟩
  nodes := passphraseNode m
  call
    | 0, n, _, w => tfPasswd n w
    | 1, n, _, w => tfPassFile env n w
    | 2, n, _, w => tfSalt env n w
    | _, _, _, _ => .error .fault

/-! ## Modules with a list of parameters -/

/-- `struct key_mod_param`, as far as the graph uses it. -/
structure KeyModParam where
  option : CStr
  suggestedVal : Option CStr
  defaultVal : Option CStr
  echoInput : Bool

/-- The first module whose alias is a prefix of the given one, by its number. -/
def findModule (aliases : List CStr) (keyModAlias : CStr) : Option ℕ :=
  aliases.findIdx? fun a => a.isPrefixOf keyModAlias

/-- `ecryptfs_enter_linear_subgraph_tf`; the value of the node is compared without a test for a null
pointer. -/
def enterLinearSubgraph (aliases : List CStr) : NodeCallback := fun n w =>
  match (w.nodes n).val with
  | none => .error .fault
  | some v =>
    match findModule aliases v with
    | none => .ok (1, w)
    | some m => .ok (0, { w with ext := { w.ext with foo := some ⟨m, []⟩ } })

/-- `ecryptfs_linear_subgraph_val_tf`: the value is appended to the list behind `foo`. -/
def linearSubgraphVal : NodeCallback := fun n w =>
  match (w.nodes n).val with
  | none => .ok (0, w)
  | some v =>
    match w.ext.foo with
    | none => .error .fault
    | some ctx =>
      .ok (0, { w with ext := { w.ext with foo := some { ctx with vals := ctx.vals ++ [v] } } })

/-- `ecryptfs_exit_linear_subgraph_tf`: the values become the parameter values of the module, and its
key goes to the keyring if there are any.  The context behind `foo` is freed, and a further use of it is
a fault. -/
def exitLinearSubgraph (env : MountEnv) : NodeCallback := fun _ w =>
  match w.ext.foo with
  | none => .error .fault
  | some ctx =>
    let w := { w with ext := { w.ext with
      foo := none
      paramVals := Function.update w.ext.paramVals ctx.keyMod ctx.vals } }
    if ctx.vals = [] then .ok (0, w)
    else
      match env.addModuleKey ctx.keyMod ctx.vals with
      | (rc, sig) => if rc < 0 then .ok (rc, w) else .ok (0, w.push (param "ecryptfs_sig=" sig))

/-- `ecryptfs_build_linear_subgraph`: a node for each parameter, and one more to leave the subgraph.
An empty list of parameters is no error, since the code for it is overwritten. -/
def linearModule (env : MountEnv) (aliases : List CStr) (m : ℕ) (modAlias : CStr)
    (params : List KeyModParam) : GraphModule where
  trans := ⟨some modAlias, some (.mod m 0), some (.mod m 0)⟩
  nodes k :=
    match params[k]? with
    | some p =>
      { mntOptNames := [p.option]
        defaultVal := p.defaultVal
        suggestedVal := p.suggestedVal
        flags := { echoInput := p.echoInput }
        tl := [⟨some (lit "default"), some (.mod m (k + 1)), some (.mod m 1)⟩] }
    | none =>
      if k = params.length then
        { mntOptNames := ["linear_subgraph_exit_dummy_node"]
          flags := { noValue := true }
          tl := [⟨some (lit "default"), none, some (.mod m 2)⟩] }
      else { mntOptNames := [] }
  call
    | 0, n, _, w => enterLinearSubgraph aliases n w
    | 1, n, _, w => linearSubgraphVal n w
    | 2, n, _, w => exitLinearSubgraph env n w
    | _, _, _, _ => .error .fault

/-! ## The whole graph -/

/-- The nodes before the exits are set: the static ones, those of the modules, and the transitions
from `select` into the modules. -/
def startNodes (mods : List GraphModule) : NodeId → MountNode
  | .select => { staticNode .select with tl := mods.map GraphModule.trans }
  | .mod m k =>
    match mods[m]? with
    | some g => g.nodes k
    | none => staticNode (.mod m k)
  | n => staticNode n

/-- How deep the recursion into the subgraphs of the modules goes here. -/
def graphDepth : ℕ := 64

/-- The nodes of the mount graph when `ecryptfs_process_decision_graph` evaluates it. -/
def mountNodes (version : UInt32) (mods : List GraphModule) : NodeId → MountNode :=
  fillInVersionSupport version (setExit .anotherKey graphDepth .select (startNodes mods))

/-- The callbacks of the modules, by their number. -/
def moduleCalls (mods : List GraphModule) (m c : ℕ) (n : NodeId) (nvps : List NameValPair)
    (w : MountWorld) : Except Stop (ℤ × MountWorld) :=
  match mods[m]? with
  | some g => g.call c n nvps w
  | none => .error .fault

/-- The state in which the mount graph is evaluated on a list of name/value pairs.  The verbosity is
set from the list and the stack emptied when the evaluation starts. -/
def mountState (version : UInt32) (mods : List GraphModule) (nvps : List NameValPair)
    (inputs : List (Except {rc : ℤ // rc < 0} CStr)) : MountState where
  world := ⟨mountNodes version mods, [none], {}⟩
  nvps := nvps
  verbosity := 0
  hasGetString := true
  inputs := inputs

/-- The modules in the graph when the passphrase module is the only registered one.  If the version
mask does not announce passphrases, a loaded module is given a subgraph without parameters; the
built-in one has no `get_params` to call. -/
def passphraseOnly (env : MountEnv) (version : UInt32) (loaded : Bool) :
    Except Stop (List GraphModule) :=
  if supports version versioningPassphrase then .ok [passphraseModule env 0]
  else if loaded then .ok [linearModule env [lit "passphrase"] 0 (lit "passphrase") []]
  else .error .fault

end Ecryptfs
