import Ecryptfs.KeyMod.Openssl
import Ecryptfs.Mount.PassphraseModule

/-!
# The module `openssl` in an evaluation

The subgraph of the module: it keeps the path of a key, is given the passphrase by its text or by a file that
holds it, and then puts the key into the keyring.  The third way leads to a function that is not implemented:
it reads no passphrase and no key, and the evaluation goes on.
-/

namespace Ecryptfs

open Memory

def enosys : ℤ := 38

def versioningPubkey : UInt32 := 0x2

/-- What the callbacks use of the outside: what `ecryptfs_openssl_process_key` and `limit_key_size` come to for a
key module, a path and a passphrase, a failure or the entries that are pushed; and the code and the list of
`parse_options_file` for the file of a path, if it can be opened, or of a descriptor. -/
structure OpensslEnv where
  processKey : ℕ → CStr → CStr → Except PayloadFailure (List CStr)
  passwdFile : CStr → Option (ℤ × List NameValPair)
  passwdFd : CStr → Option (ℤ × List NameValPair)

/-- The environment in which the callbacks meet the library `lib` and the files of the user. -/
def mountEnv (lib : Openssl) (calls : Openssl.MountCalls) (files : KeyFiles) (ring : TokenRing)
    (passwdFile passwdFd : CStr → Option (ℤ × List NameValPair)) : OpensslEnv where
  processKey _ path passphrase := (lib.processKey calls files path passphrase ring).1
  passwdFile := passwdFile
  passwdFd := passwdFd

/-- A key that is processed pushes nothing but signatures and limits for the key size. -/
def OpensslEnv.PushesParameters (env : OpensslEnv) : Prop :=
  ∀ found path passphrase pushed, env.processKey found path passphrase = .ok pushed →
    ∀ p ∈ pushed, lit "ecryptfs_sig=" <+: p ∨ lit "max_key_bytes=" <+: p

/-- `tf_openssl_enter`. -/
def tfOpensslEnter (aliases : List CStr) : NodeCallback := enterLinearSubgraph aliases

/-- The values of the context are the path of the key and its passphrase. -/
def keepData (ctx : SubgraphCtx) (data : List CStr) (w : MountWorld) : MountWorld :=
  { w with ext := { w.ext with foo := some { ctx with vals := data } } }

/-- `tf_ssl_keyfile`. -/
def tfSslKeyfile : NodeCallback := fun n w =>
  match w.ext.foo with
  | none => .error .fault
  | some ctx => .ok (defaultTok, clearVal (keepData ctx [printed (w.nodes n).val] w) n)

/-- The end of `tf_ssl_passwd` and `tf_ssl_passwd_file`: the key is processed, and the context freed. -/
def sslProcess (env : OpensslEnv) (passphrase : CStr) (w : MountWorld) : Except Stop (ℤ × MountWorld) :=
  match w.ext.foo with
  | none => .error .fault
  | some ctx =>
    match ctx.vals with
    | [] => .error .fault
    | path :: _ =>
      match env.processKey ctx.keyMod path passphrase with
      | .error (.rc code) => .ok (code, keepData ctx [path, passphrase] w)
      -- the program ends
      | .error .exit => .error .fault
      | .ok pushed => .ok (defaultTok,
          { w with stack := pushed.reverse.map some ++ w.stack, ext := { w.ext with foo := none } })

/-- `tf_ssl_passwd`. -/
def tfSslPasswd (env : OpensslEnv) : NodeCallback := fun n w =>
  sslProcess env (printed (w.nodes n).val) (clearVal w n)

/-- The part of `tf_ssl_passwd_file` after the file is opened. -/
def sslPasswdFrom (env : OpensslEnv) (opened : Option (ℤ × List NameValPair)) (n : NodeId) (w : MountWorld) :
    Except Stop (ℤ × MountWorld) :=
  match opened with
  | none => .ok (mountError, clearVal w n)
  | some (rc, list) =>
    if rc ≠ 0 then .ok (rc, clearVal w n)
    else
      match list.find? fun e => e.name = lit "openssl_passwd" with
      | none => .ok (mountError, clearVal w n)
      | some e => sslProcess env (printed e.value) (clearVal w n)

/-- `tf_ssl_passwd_file`: a null path cannot be opened, a null text of a descriptor is dereferenced. -/
def tfSslPasswdFile (env : OpensslEnv) : NodeCallback := fun n w =>
  let node := w.nodes n
  if node.mntOptNames.head? = some (lit "openssl_passwd_file") then
    sslPasswdFrom env (node.val.bind env.passwdFile) n w
  else if node.mntOptNames.head? = some (lit "openssl_passwd_fd") then
    match node.val with
    | none => .error .fault
    | some fd => sslPasswdFrom env (env.passwdFd fd) n w
  else .ok (mountError, clearVal w n)

/-- `tf_ssl_passwd_fd`. -/
def tfSslPasswdFd : NodeCallback := fun _ w => .ok (enosys, w)

/-- The nodes of the module, as module number `m`; `ecryptfs_openssl_init` suggests the path `keyfile`. -/
def sslNode (keyfile : CStr) (m : ℕ) : ℕ → MountNode
  | 0 =>
    { mntOptNames := ["openssl_keysource", "keysource"]
      defaultVal := some (lit "keyfile")
      flags := { noValue := true }
      tl := [⟨some (lit "default"), some (.mod m 1), none⟩] }
  | 1 =>
    { mntOptNames := ["openssl_keyfile", "keyfile"]
      suggestedVal := some keyfile
      flags := { echoInput := true }
      tl := [⟨some (lit "default"), some (.mod m 2), some (.mod m 1)⟩] }
  | 2 =>
    { mntOptNames := ["openssl_passwd_specification_method", "passwd_specification_method"]
      suggestedVal := some (lit "openssl_passwd")
      flags :=
        { displayTransitionNodeVals := true, displayPrettyVals := true, echoInput := true
          allowImplicitTransition := true }
      tl := [⟨some (lit "openssl_passwd"), some (.mod m 3), none⟩,
        ⟨some (lit "openssl_passwd_file"), some (.mod m 4), none⟩,
        ⟨some (lit "openssl_passwd_fd"), some (.mod m 5), none⟩] }
  | 3 =>
    { mntOptNames := ["openssl_passwd", "passwd"]
      flags := { stdinRequired := true, maskOutput := true }
      tl := [⟨none, none, some (.mod m 2)⟩] }
  | 4 =>
    { mntOptNames := ["openssl_passwd_file", "passwd_file"]
      flags := { stdinRequired := true, echoInput := true, nonemptyValueRequired := true }
      tl := [⟨none, none, some (.mod m 3)⟩] }
  | 5 =>
    { mntOptNames := ["openssl_passwd_fd", "passwd_fd"]
      flags := { stdinRequired := true, echoInput := true, nonemptyValueRequired := true }
      tl := [⟨none, none, some (.mod m 4)⟩] }
  | _ => { mntOptNames := [] }

/-- The module `openssl`, as module number `m`, where the registered modules have the given aliases. -/
def sslModule (env : OpensslEnv) (aliases : List CStr) (keyfile : CStr) (m : ℕ) : GraphModule where
  trans := ⟨some (lit "openssl"), some (.mod m 0), some (.mod m 0)⟩
  nodes := sslNode keyfile m
  call
    | 0, n, _, w => tfOpensslEnter aliases n w
    | 1, n, _, w => tfSslKeyfile n w
    | 2, n, _, w => tfSslPasswd env n w
    | 3, n, _, w => tfSslPasswdFile env n w
    | 4, n, _, w => tfSslPasswdFd n w
    | _, _, _, _ => .error .fault

/-- So does the library. -/
theorem mountEnv_pushes (lib : Openssl) (calls : Openssl.MountCalls) (files : KeyFiles) (ring : TokenRing)
    (passwdFile passwdFd : CStr → Option (ℤ × List NameValPair)) :
    (mountEnv lib calls files ring passwdFile passwdFd).PushesParameters :=
  fun _ _ _ _ processed => Openssl.processKey_pushes processed

variable {env : OpensslEnv} {aliases : List CStr} {keyfile : CStr} {mods : List GraphModule} {m : ℕ}
  {names : List CStr} {q : CStr → List (Option CStr)} {w w' : MountWorld}

/-! ## The ways of the passphrase -/

/-- The ways to give the passphrase: its text, a file that holds it, or a descriptor. -/
inductive SslWay where
  | passwd
  | file
  | fd
  deriving DecidableEq

/-- The node of a way, and the number of its function. -/
def SslWay.node : SslWay → ℕ
  | .passwd => 3
  | .file => 4
  | .fd => 5

def SslWay.call : SslWay → ℕ
  | .passwd => 2
  | .file => 3
  | .fd => 4

def SslWay.option : SslWay → String
  | .passwd => "openssl_passwd"
  | .file => "openssl_passwd_file"
  | .fd => "openssl_passwd_fd"

/-- The other name of the option. -/
def SslWay.short : SslWay → String
  | .passwd => "passwd"
  | .file => "passwd_file"
  | .fd => "passwd_fd"

/-- The ways in front of a way, in the order of the transitions. -/
def SslWay.before : SslWay → List SslWay
  | .passwd => []
  | .file => [.passwd]
  | .fd => [.passwd, .file]

def SslWay.behind : SslWay → List SslWay
  | .passwd => [.file, .fd]
  | .file => [.fd]
  | .fd => []

/-- The transition to a way. -/
def SslWay.transition (m : ℕ) (way : SslWay) : TransitionNode NodeId Callback :=
  ⟨some (lit way.option), some (.mod m way.node), none⟩

theorem method_tl (keyfile : CStr) (m : ℕ) (way : SslWay) : (sslNode keyfile m 2).tl =
    way.before.map (SslWay.transition m) ++ way.transition m :: way.behind.map (SslWay.transition m) := by
  cases way <;> rfl

theorem way_names (way : SslWay) :
    (sslNode keyfile m way.node).mntOptNames = [lit way.option, lit way.short] := by
  cases way <;> rfl

/-- The nodes with the way out of the module. -/
def sslExit (keyfile : CStr) (m k : ℕ) : MountNode :=
  if k = 3 ∨ k = 4 ∨ k = 5 then
    { sslNode keyfile m k with tl := [defaultTransition (some .anotherKey) (some (.mod m (k - 1)))] }
  else sslNode keyfile m k

theorem sslExit_way (way : SslWay) : sslExit keyfile m way.node =
    { sslNode keyfile m way.node with tl := [defaultTransition (some .anotherKey) (some (.mod m way.call))] } := by
  cases way <;> rfl

theorem startNodes_ssl (isSsl : mods[m]? = some (sslModule env aliases keyfile m)) (k : ℕ) :
    startNodes mods (.mod m k) = sslNode keyfile m k := by
  simp only [startNodes, isSsl]
  rfl

/-- The recursion for the exits comes to the nodes of the ways, which are the open ends. -/
theorem exitedNodes_ssl (linked : LinkedModules mods)
    (isSsl : mods[m]? = some (sslModule env aliases keyfile m)) (k : ℕ) :
    exitedNodes mods (.mod m k) = sslExit keyfile m k := by
  have start := startNodes_ssl isSsl
  have leaf : ∀ way : SslWay, exitedNodes mods (.mod m way.node) = sslExit keyfile m way.node := by
    intro way
    have path : Way (startNodes mods) 4 .select (.mod m way.node) := by
      refine .step (sslModule env aliases keyfile m).trans
        (List.mem_map.mpr ⟨_, List.mem_of_getElem? isSsl, rfl⟩) rfl ?_
      refine .step ⟨some (lit "default"), some (.mod m 1), none⟩ ?_ rfl ?_
      · rw [start]
        exact List.mem_cons_self
      refine .step ⟨some (lit "default"), some (.mod m 2), some (.mod m 1)⟩ ?_ rfl ?_
      · rw [start]
        exact List.mem_cons_self
      refine .step (way.transition m) ?_ rfl (.here _)
      rw [start, method_tl]
      exact List.mem_append_right _ List.mem_cons_self
    have only : (startNodes mods (.mod m way.node)).tl = [⟨none, none, some (.mod m way.call)⟩] := by
      rw [start]
      cases way <;> rfl
    have closed : exitedNodes mods (.mod m way.node) = _ := setExit_leaf path (by decide : 4 < graphDepth) only rfl
    rw [start] at closed
    exact closed.trans (sslExit_way way).symm
  by_cases isWay : k = 3 ∨ k = 4 ∨ k = 5
  · rcases isWay with rfl | rfl | rfl
    · exact leaf .passwd
    · exact leaf .file
    · exact leaf .fd
  · have noOpenEnd : NoOpenEnd (startNodes mods) (.mod m k) := by
      unfold NoOpenEnd
      rw [start]
      rcases k with _ | _ | _ | _ | _ | _ | k
      · simp [sslNode]
      · simp [sslNode]
      · simp [sslNode]
      · exact absurd (.inl rfl) isWay
      · exact absurd (.inr (.inl rfl)) isWay
      · exact absurd (.inr (.inr rfl)) isWay
      · simp [sslNode]
    rw [(exited_spec linked).same _ fun _ => noOpenEnd, start, sslExit, if_neg isWay]

/-! ## What a list gives -/

/-- The option names of the module. -/
def sslOptions : List String :=
  ["openssl_keysource", "keysource", "openssl_keyfile", "keyfile", "openssl_passwd_specification_method",
    "passwd_specification_method", "openssl_passwd", "passwd", "openssl_passwd_file", "passwd_file",
    "openssl_passwd_fd", "passwd_fd"]

/-- What the list gives to the module when it has one entry for the path of the key and one for a way. -/
structure SslGiven (way : SslWay) (path : CStr) (value : Option CStr) (names : List CStr)
    (q : CStr → List (Option CStr)) : Prop where
  path : q (lit "openssl_keyfile") = [some path]
  value : q (lit way.option) = [value]
  others : ∀ x ∈ sslOptions, x ≠ way.option → x ≠ "openssl_keyfile" → q (lit x) = []
  named : ∀ x ∈ sslOptions, x ≠ way.option → x ≠ "openssl_keyfile" → lit x ∉ names
  unnamed : lit "default" ∉ names

/-- The nodes of the module are as they were at the start. -/
def SslFresh (keyfile : CStr) (m : ℕ) (w : MountWorld) : Prop := ∀ k, w.nodes (.mod m k) = sslExit keyfile m k

/-- What a way gives for the path `path` and the value `v`: the entries that are pushed. -/
def SslWay.Gives (env : OpensslEnv) (found : ℕ) (path v : CStr) (pushed : List CStr) : SslWay → Prop
  | .passwd => env.processKey found path v = .ok pushed
  | .file => ∃ list e, env.passwdFile v = some (0, list) ∧
      list.find? (fun e => e.name = lit "openssl_passwd") = some e ∧
      env.processKey found path (printed e.value) = .ok pushed
  | .fd => pushed = []

/-- The queues behind the module. -/
def behindSsl (way : SslWay) (q : CStr → List (Option CStr)) : CStr → List (Option CStr) :=
  Function.update (Function.update q (lit "openssl_keyfile") []) (lit way.option) []

theorem transFunc_ssl (isSsl : mods[m]? = some (sslModule env aliases keyfile m)) (code : ℤ) (c : ℕ) (n : NodeId)
    (nvps : List NameValPair) (u : MountWorld) :
    transFunc (mountCall (moduleCalls mods)) code (some (.mod m c)) n nvps u =
      (sslModule env aliases keyfile m).call c n nvps u := by
  simp only [transFunc, mountCall, moduleCalls, isSsl]

/-! ## The turns -/

section

variable {way : SslWay} {path v : CStr} {value : Option CStr} {ctx : SubgraphCtx} {pushed : List CStr}

/-- The source of the key is known without asking. -/
theorem keysource_walks (fresh : SslFresh keyfile m w) (given : SslGiven way path value names q) :
    Walks (mountCall (moduleCalls mods)) names (.mod m 0) w q (.mod m 1)
      (w.setNode (.mod m 0) { sslNode keyfile m 0 with val := some (lit "keyfile") }) q := by
  have node : w.nodes (.mod m 0) = sslNode keyfile m 0 := fresh 0
  have absent : ∀ x ∈ ["openssl_keysource", "keysource"], q (lit x) = [] := by
    have inside : ∀ x ∈ ["openssl_keysource", "keysource"], x ∈ sslOptions ∧ x ≠ "openssl_keyfile" := by decide
    have other : ∀ x ∈ ["openssl_keysource", "keysource"], x ≠ way.option := by
      cases way <;> decide
    exact fun x among => given.others x (inside x among).1 (other x among) (inside x among).2
  have receives := @receives_default _ _ _ _ names (.mod m 0) w q (lit "keyfile")
    (by rw [node]; exact ⟨rfl, rfl, rfl⟩) (by
      rw [node]
      intro x among
      rcases List.mem_cons.mp among with rfl | among
      · exact absent _ (by simp)
      · rw [List.mem_singleton.mp among]
        exact absent _ (by simp)) (by rw [node]; rfl) (by decide)
  rw [node] at receives
  have node' := w.nodes_setNode_self (.mod m 0) { sslNode keyfile m 0 with val := some (lit "keyfile") }
  refine walks_only receives (by rw [node']; rfl) given.unnamed ?_
    (by decide : (0 : ℤ) ≤ nullTok ∧ _) (fun nvps _ => rfl) ?_
  · rw [node']
    exact fun same => absurd (Option.some.inj same) (by decide)
  · rw [nextToken, transition, node']
    rfl

/-- The path of the key is kept. -/
theorem keyfile_walks (isSsl : mods[m]? = some (sslModule env aliases keyfile m))
    (node : w.nodes (.mod m 1) = sslNode keyfile m 1) (foo : w.ext.foo = some ctx)
    (given : SslGiven way path value names q) (real : path ≠ nullText) (noLabel : path ≠ lit "default") :
    Walks (mountCall (moduleCalls mods)) names (.mod m 1) w q (.mod m 2) (keepData ctx [path] w)
      (Function.update q (lit "openssl_keyfile") []) := by
  have receives := @receives_among _ _ _ _ names (.mod m 1) w q (lit "openssl_keyfile") path [] []
    [lit "keyfile"] (by rw [node]; exact ⟨rfl, rfl, rfl⟩) (by rw [node]; rfl)
    (List.forall_mem_singleton.mpr (given.others _ (by decide) (by cases way <;> decide) (by decide)))
    given.path real
  rw [node] at receives
  have node' := w.nodes_setNode_self (.mod m 1) { sslNode keyfile m 1 with val := some path }
  refine walks_only receives (by rw [node']; rfl) given.unnamed ?_ (by decide : (0 : ℤ) ≤ defaultTok ∧ _)
    (fun nvps _ => ?_) ?_
  · rw [node']
    exact fun same => noLabel (Option.some.inj same)
  · rw [transFunc_ssl isSsl]
    change tfSslKeyfile (.mod m 1) _ = _
    unfold tfSslKeyfile
    have held : (w.setNode (.mod m 1) { sslNode keyfile m 1 with val := some path }).ext.foo = some ctx := foo
    rw [held, node']
    have cleared : clearVal (w.setNode (.mod m 1) { sslNode keyfile m 1 with val := some path }) (.mod m 1) = w :=
      clearVal_setNode node.symm
    exact congrArg (fun u : MountWorld => Except.ok (defaultTok, keepData ctx [path] u)) cleared
  · rw [nextToken, transition]
    change ((w.nodes (.mod m 1)).tl[0]?).bind _ = _
    rw [node]
    rfl

/-- The world in which the passphrase was found. -/
def methodWorld (keyfile : CStr) (m : ℕ) (way : SslWay) (v : CStr) (w : MountWorld) : MountWorld :=
  (w.setNode (.mod m way.node) { sslExit keyfile m way.node with val := some v }).setNode (.mod m 2)
    { sslNode keyfile m 2 with val := some (lit way.option) }

/-- The way is chosen by the option in the list. -/
theorem method_walks (node : w.nodes (.mod m 2) = sslNode keyfile m 2)
    (ways : ∀ way : SslWay, w.nodes (.mod m way.node) = sslExit keyfile m way.node)
    (value : q (lit way.option) = [some v])
    (others : ∀ x ∈ sslOptions, x ≠ way.option → x ≠ "openssl_keyfile" → q (lit x) = [])
    (named : ∀ x ∈ sslOptions, x ≠ way.option → x ≠ "openssl_keyfile" → lit x ∉ names) (real : v ≠ nullText) :
    Walks (mountCall (moduleCalls mods)) names (.mod m 2) w q (.mod m way.node) (methodWorld keyfile m way v w)
      (Function.update q (lit way.option) []) := by
  have otherNode : NodeId.mod m way.node ≠ .mod m 2 := by
    cases way <;> simp [SslWay.node]
  have options : ∀ way : SslWay, (w.nodes (.mod m way.node)).mntOptNames = [lit way.option, lit way.short] := by
    intro way
    rw [ways, sslExit_way]
    exact way_names way
  have own : ∀ x ∈ ["openssl_passwd_specification_method", "passwd_specification_method"], q (lit x) = [] := by
    have inside : ∀ x ∈ ["openssl_passwd_specification_method", "passwd_specification_method"],
        x ∈ sslOptions ∧ x ≠ "openssl_keyfile" := by decide
    have other : ∀ x ∈ ["openssl_passwd_specification_method", "passwd_specification_method"], x ≠ way.option := by
      cases way <;> decide
    exact fun x among => others x (inside x among).1 (other x among) (inside x among).2
  have apart : ∀ u ∈ way.before, u.option ∈ sslOptions ∧ u.option ≠ way.option ∧ u.option ≠ "openssl_keyfile" ∧
      u.short ∈ sslOptions ∧ u.short ≠ way.option ∧ u.short ≠ "openssl_keyfile" := by
    cases way <;> decide
  have receives := @receives_follows _ _ _ _ names (.mod m 2) (.mod m way.node) w q (lit way.option) (some v) [] []
    [lit way.short] (way.transition m) (way.before.map (SslWay.transition m))
    (way.behind.map (SslWay.transition m)) (by rw [node]; rfl) (by rw [node]; exact ⟨rfl, rfl⟩) (by
      rw [node]
      intro x among
      rcases List.mem_cons.mp among with rfl | among
      · exact own _ (by simp)
      · rw [List.mem_singleton.mp among]
        exact own _ (by simp)) (by rw [node]; exact .inl rfl) (by rw [node]; exact method_tl keyfile m way) (by
      intro u among
      obtain ⟨u, inside, rfl⟩ := List.mem_map.mp among
      obtain ⟨isOption, noOption, noFile, isShort, noShort, noFile'⟩ := apart u inside
      refine ⟨.mod m u.node, rfl, by cases u <;> simp [SslWay.node], ?_, ?_⟩
      · rw [options]
        intro x among
        rcases List.mem_cons.mp among with rfl | among
        · exact others _ isOption noOption noFile
        · rw [List.mem_singleton.mp among]
          exact others _ isShort noShort noFile'
      · rw [ways, sslExit_way]
        left
        cases u <;> rfl) rfl otherNode (options way)
    (List.forall_mem_singleton.mpr (others _ (by cases way <;> decide) (by cases way <;> decide)
      (by cases way <;> decide))) value
  have world : (w.setNode (.mod m way.node) ((w.nodes (.mod m way.node)).receive (some v))).setNode (.mod m 2)
      { w.nodes (.mod m 2) with val := some (printed (w.nodes (.mod m way.node)).mntOptNames.head?) } =
      methodWorld keyfile m way v w := by
    rw [options, receive_real real, node, ways]
    rfl
  rw [world] at receives
  have node' : (methodWorld keyfile m way v w).nodes (.mod m 2) =
      { sslNode keyfile m 2 with val := some (lit way.option) } := World.nodes_setNode_self _ _ _
  have tl : ((methodWorld keyfile m way v w).nodes (.mod m 2)).tl =
      way.before.map (SslWay.transition m) ++ way.transition m :: way.behind.map (SslWay.transition m) := by
    rw [node']
    exact method_tl keyfile m way
  have there : transition (methodWorld keyfile m way v w) (.mod m 2) way.before.length = some (way.transition m) := by
    rw [transition, tl, List.getElem?_append_right (by simp)]
    simp
  refine walks_matched way.before.length (way.transition m) receives rfl (by rw [node']; rfl) (fun i low u here => ?_)
    (by cases way <;> decide) fun nvps _ => ⟨there, rfl, by decide, ?_⟩
  · rw [transition, tl, List.getElem?_append_left (by simpa using low), List.getElem?_map,
      Option.map_eq_some_iff] at here
    obtain ⟨u, here, rfl⟩ := here
    obtain ⟨isOption, noOption, noFile, -⟩ := apart u (List.mem_of_getElem? here)
    refine ⟨_, rfl, named _ isOption noOption noFile, ?_⟩
    rw [node']
    exact fun same => noOption (lit_inj.mp (Option.some.inj same))
  · rw [nextToken, there]
    rfl

/-- The world after a key was processed. -/
def processedWorld (n : NodeId) (pushed : List CStr) (u : MountWorld) : MountWorld :=
  { clearVal u n with stack := pushed.reverse.map some ++ u.stack, ext := { u.ext with foo := none } }

theorem sslProcess_ok (foo : w.ext.foo = some { ctx with vals := [path] })
    (processed : env.processKey ctx.keyMod path v = .ok pushed) (n : NodeId) :
    sslProcess env v (clearVal w n) = .ok (defaultTok, processedWorld n pushed w) := by
  have foo' : (clearVal w n).ext.foo = some { ctx with vals := [path] } := foo
  unfold sslProcess
  rw [foo']
  dsimp only
  rw [processed]
  rfl

/-- What the function of a way comes to. -/
theorem way_call (isSsl : mods[m]? = some (sslModule env aliases keyfile m))
    (node : w.nodes (.mod m way.node) = { sslExit keyfile m way.node with val := some v })
    (foo : w.ext.foo = some { ctx with vals := [path] }) (gives : way.Gives env ctx.keyMod path v pushed)
    (c : ℤ) (nvps : List NameValPair) : ∃ code w', (0 ≤ code ∧ code ≠ mountError ∧ code ≠ wrongValue) ∧
      transFunc (mountCall (moduleCalls mods)) c (some (.mod m way.call)) (.mod m way.node) nvps w = .ok (code, w') ∧
      (∀ k, w'.nodes k = w.nodes k ∨ w'.nodes k = { w.nodes k with val := none }) ∧
      (∀ k, k ≠ .mod m way.node → w'.nodes k = w.nodes k) ∧
      w'.stack = pushed.reverse.map some ++ w.stack := by
  have others : ∀ k, (processedWorld (.mod m way.node) pushed w).nodes k = w.nodes k ∨
      (processedWorld (.mod m way.node) pushed w).nodes k = { w.nodes k with val := none } := by
    intro k
    by_cases here : k = .mod m way.node
    · subst here
      exact .inr (clearVal_self w _)
    · exact .inl (clearVal_other here)
  have val : (w.nodes (.mod m way.node)).val = some v := by rw [node]
  have options : (w.nodes (.mod m way.node)).mntOptNames.head? = some (lit way.option) := by
    rw [node, sslExit_way]
    exact congrArg List.head? (way_names way)
  rw [transFunc_ssl isSsl]
  cases way with
  | passwd =>
    refine ⟨defaultTok, _, by decide, ?_, others, fun k other => clearVal_other other, rfl⟩
    change tfSslPasswd env (.mod m SslWay.passwd.node) w = _
    unfold tfSslPasswd
    rw [val]
    exact sslProcess_ok foo gives _
  | file =>
    obtain ⟨list, e, opened, found, processed⟩ := gives
    refine ⟨defaultTok, _, by decide, ?_, others, fun k other => clearVal_other other, rfl⟩
    change tfSslPasswdFile env (.mod m SslWay.file.node) w = _
    unfold tfSslPasswdFile sslPasswdFrom
    simp only [options, val, Option.bind_some, opened, found, SslWay.option, if_true, ne_eq, not_true_eq_false,
      if_false]
    exact sslProcess_ok foo processed _
  | fd =>
    obtain rfl : pushed = [] := gives
    exact ⟨enosys, w, by decide, rfl, fun k => .inl rfl, fun k _ => rfl, rfl⟩

/-- A way leads out of the module. -/
theorem way_walks (isSsl : mods[m]? = some (sslModule env aliases keyfile m))
    (node : w.nodes (.mod m way.node) = { sslExit keyfile m way.node with val := some v })
    (foo : w.ext.foo = some { ctx with vals := [path] }) (gives : way.Gives env ctx.keyMod path v pushed)
    (unnamed : lit "default" ∉ names) (noLabel : v ≠ lit "default") : ∃ w',
    Walks (mountCall (moduleCalls mods)) names (.mod m way.node) w q .anotherKey w' q ∧
      w'.stack = pushed.reverse.map some ++ w.stack ∧ ∀ k, k ≠ .mod m way.node → w'.nodes k = w.nodes k := by
  obtain ⟨code, w', success, called, nodes, others, stack⟩ := way_call isSsl node foo gives nullTok []
  have only : (w.nodes (.mod m way.node)).tl = [defaultTransition (some .anotherKey) (some (.mod m way.call))] := by
    rw [node, sslExit_way]
  have given : (w.nodes (.mod m way.node)).val.isSome := by
    rw [node]
    rfl
  refine ⟨w', walks_only (receives_given given) only unnamed ?_ success (fun nvps _ => ?_) ?_, stack, others⟩
  · rw [node]
    exact fun same => noLabel (Option.some.inj same)
  · rw [transFunc_ssl isSsl] at called ⊢
    rw [← called]
    cases way <;> rfl
  · rw [nextToken, transition]
    rcases nodes (.mod m way.node) with same | cleared
    · rw [same, only]
      rfl
    · rw [cleared]
      change ((w.nodes (.mod m way.node)).tl[0]?).bind _ = _
      rw [only]
      rfl

/-- **The way of a key through the module.**  The module is left with the entries on the stack that the key
comes to; by a descriptor there are none. -/
theorem ssl_walks (isSsl : mods[m]? = some (sslModule env aliases keyfile m)) (fresh : SslFresh keyfile m w)
    (foo : w.ext.foo = some ctx) (given : SslGiven way path (some v) names q)
    (real : path ≠ nullText ∧ v ≠ nullText) (noLabel : path ≠ lit "default" ∧ v ≠ lit "default")
    (gives : way.Gives env ctx.keyMod path v pushed) : ∃ w',
    Walks (mountCall (moduleCalls mods)) names (.mod m 0) w q .anotherKey w' (behindSsl way q) ∧
      w'.stack = pushed.reverse.map some ++ w.stack ∧ KeepsGraph w w' := by
  have first := @keysource_walks keyfile mods m names q w way path (some v) fresh given
  let w₁ := w.setNode (.mod m 0) { sslNode keyfile m 0 with val := some (lit "keyfile") }
  have nodes₁ : ∀ k, k ≠ 0 → w₁.nodes (.mod m k) = sslExit keyfile m k := fun k other =>
    (w.nodes_setNode_of_ne _ (by simpa using other)).trans (fresh k)
  have second := @keyfile_walks env aliases keyfile mods m names q w₁ way path (some v) ctx isSsl
    (nodes₁ 1 (by decide)) foo given real.1 noLabel.1
  let w₂ := keepData ctx [path] w₁
  have optionOther : lit way.option ≠ lit "openssl_keyfile" := by
    cases way <;> simp [SslWay.option]
  have third := @method_walks keyfile mods m names (Function.update q (lit "openssl_keyfile") []) w₂ way v
    (nodes₁ 2 (by decide)) (fun way => nodes₁ way.node (by cases way <;> decide))
    ((Function.update_of_ne optionOther _ _).trans given.value)
    (fun x inside noOption noFile => (Function.update_of_ne (fun same => noFile (lit_inj.mp same)) _ _).trans
      (given.others x inside noOption noFile)) given.named real.2
  let w₃ := methodWorld keyfile m way v w₂
  have node₃ : w₃.nodes (.mod m way.node) = { sslExit keyfile m way.node with val := some v } := by
    have other : NodeId.mod m way.node ≠ .mod m 2 := by
      cases way <;> simp [SslWay.node]
    exact (World.nodes_setNode_of_ne _ _ other).trans (World.nodes_setNode_self _ _ _)
  obtain ⟨w', fourth, stack, others⟩ := @way_walks env aliases keyfile mods m names (behindSsl way q) w₃ way path v
    ctx pushed isSsl node₃ rfl gives given.unnamed noLabel.2
  refine ⟨w', first.trans (second.trans (third.trans fourth)), stack, fun n outside => ?_⟩
  have notOurs : ∀ k, n ≠ .mod m k := fun k same => outside ⟨m, k, same⟩
  calc w'.nodes n = w₃.nodes n := others n (notOurs _)
    _ = (w₂.setNode (.mod m way.node) { sslExit keyfile m way.node with val := some v }).nodes n :=
      World.nodes_setNode_of_ne _ _ (notOurs 2)
    _ = w₂.nodes n := World.nodes_setNode_of_ne _ _ (notOurs _)
    _ = w.nodes n := World.nodes_setNode_of_ne _ _ (notOurs 0)

end

/-! ## The module among others -/

theorem sslNode_module (keyfile : CStr) (m k : ℕ) : ModuleNode (sslNode keyfile m k) := by
  have links : ModuleLinks (sslNode keyfile m k).tl := by
    apply ModuleLinks.own (m := m)
    rcases k with _ | _ | _ | _ | _ | _ | k <;> simp [sslNode]
  have names : ∀ x ∈ sslOptions.map lit, x ∉ reservedNames := by decide
  refine ⟨fun x among => ?_, links.next, links.func⟩
  apply names
  rcases k with _ | _ | _ | _ | _ | _ | k
  · have table : ∀ x ∈ (["openssl_keysource", "keysource"] : List CStr), x ∈ sslOptions.map lit := by decide
    exact table x among
  · have table : ∀ x ∈ (["openssl_keyfile", "keyfile"] : List CStr), x ∈ sslOptions.map lit := by decide
    exact table x among
  · have table : ∀ x ∈ (["openssl_passwd_specification_method", "passwd_specification_method"] : List CStr),
        x ∈ sslOptions.map lit := by decide
    exact table x among
  · have table : ∀ x ∈ (["openssl_passwd", "passwd"] : List CStr), x ∈ sslOptions.map lit := by decide
    exact table x among
  · have table : ∀ x ∈ (["openssl_passwd_file", "passwd_file"] : List CStr), x ∈ sslOptions.map lit := by decide
    exact table x among
  · have table : ∀ x ∈ (["openssl_passwd_fd", "passwd_fd"] : List CStr), x ∈ sslOptions.map lit := by decide
    exact table x among
  · cases among

theorem sslProcess_nodes {passphrase : CStr} {code : ℤ} (h : sslProcess env passphrase w = .ok (code, w')) :
    w'.nodes = w.nodes := by
  unfold sslProcess at h
  split at h
  · cases h
  · split at h
    · cases h
    · split at h
      · obtain ⟨-, rfl⟩ := Prod.mk.inj (Except.ok.inj h)
        rfl
      · cases h
      · obtain ⟨-, rfl⟩ := Prod.mk.inj (Except.ok.inj h)
        rfl

theorem OnlyVal.process {n : NodeId} {passphrase : CStr} {code : ℤ}
    (h : sslProcess env passphrase (clearVal w n) = .ok (code, w')) : OnlyVal n w w' :=
  ⟨none, sslProcess_nodes h⟩

theorem sslPasswdFrom_onlyVal {opened : Option (ℤ × List NameValPair)} {n : NodeId} {code : ℤ}
    (h : sslPasswdFrom env opened n w = .ok (code, w')) : OnlyVal n w w' := by
  unfold sslPasswdFrom at h
  split at h
  · obtain ⟨-, rfl⟩ := Prod.mk.inj (Except.ok.inj h)
    exact ⟨none, rfl⟩
  · split_ifs at h
    · obtain ⟨-, rfl⟩ := Prod.mk.inj (Except.ok.inj h)
      exact ⟨none, rfl⟩
    · split at h
      · obtain ⟨-, rfl⟩ := Prod.mk.inj (Except.ok.inj h)
        exact ⟨none, rfl⟩
      · exact .process h

/-- The functions of the module only change the value of their node. -/
theorem sslCall_onlyVal {c : ℕ} {n : NodeId} {nvps : List NameValPair} {code : ℤ}
    (h : (sslModule env aliases keyfile m).call c n nvps w = .ok (code, w')) : OnlyVal n w w' := by
  rcases c with _ | _ | _ | _ | _ | c
  · exact enterLinearSubgraph_onlyVal h
  · have h : tfSslKeyfile n w = .ok (code, w') := h
    unfold tfSslKeyfile at h
    split at h
    · cases h
    · obtain ⟨-, rfl⟩ := Prod.mk.inj (Except.ok.inj h)
      exact ⟨none, rfl⟩
  · exact .process h
  · have h : tfSslPasswdFile env n w = .ok (code, w') := h
    unfold tfSslPasswdFile at h
    dsimp only at h
    split_ifs at h
    · exact sslPasswdFrom_onlyVal h
    · split at h
      · cases h
      · exact sslPasswdFrom_onlyVal h
    · obtain ⟨-, rfl⟩ := Prod.mk.inj (Except.ok.inj h)
      exact ⟨none, rfl⟩
  · obtain ⟨-, rfl⟩ := Prod.mk.inj (Except.ok.inj h)
    exact .of_nodes rfl
  · cases h

/-- The function of the transition into the module leaves the nodes alone. -/
theorem tfOpensslEnter_nodes {n : NodeId} {code : ℤ} (h : tfOpensslEnter aliases n w = .ok (code, w')) :
    w'.nodes = w.nodes := by
  unfold tfOpensslEnter enterLinearSubgraph at h
  split at h
  · cases h
  · split at h
    · obtain ⟨-, rfl⟩ := Prod.mk.inj (Except.ok.inj h)
      rfl
    · obtain ⟨-, rfl⟩ := Prod.mk.inj (Except.ok.inj h)
      rfl

theorem confined_ssl (env : OpensslEnv) (aliases : List CStr) (keyfile : CStr) :
    Confined [sslModule env aliases keyfile 0] := by
  refine ⟨?_, ?_, ?_, ?_⟩
  · intro g registered
    rw [List.mem_singleton.mp registered]
    exact ⟨⟨_, rfl⟩, ⟨_, rfl, 0, 0, rfl⟩, fun f isFunc => ⟨0, 0, (Option.some.inj isFunc).symm⟩⟩
  · intro g registered
    rw [List.mem_singleton.mp registered]
    exact sslNode_module keyfile 0
  · intro m c n nvps w code w' isModule h modules
    rcases m with _ | m
    · exact (sslCall_onlyVal (m := 0) h).confined isModule modules
    · cases h
  · intro g registered m c isFunc nvps w code w' h modules
    rw [List.mem_singleton.mp registered] at isFunc
    obtain ⟨rfl, rfl⟩ := Callback.mod.inj (Option.some.inj isFunc)
    have same := tfOpensslEnter_nodes (show tfOpensslEnter aliases .select w = .ok (code, w') from h)
    refine ⟨fun m k => ?_, fun n _ => congrFun same n⟩
    rw [same]
    exact modules m k

end Ecryptfs
