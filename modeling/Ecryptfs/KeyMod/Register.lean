import Ecryptfs.CString
import Mathlib.Tactic

/-!
# Registration of the key modules

`registerKeyModules` loads the shared objects of the key-module directory one after the other and
appends the modules that can be initialized to the list of the context; then it goes through the
built-in modules and appends those whose name is not in the list yet.  Only the first loop fills in
dummy operations where a module has none.

The context starts with an empty list, as its callers zero it, and each library brings a table of
operations of its own.
-/

namespace Ecryptfs

/-- The operations of `struct ecryptfs_key_mod_ops`. -/
inductive KeyModOp where
  | init
  | getGenKeyParams
  | getGenKeySubgraphTransNode
  | getParams
  | getParamSubgraphTransNode
  | getBlob
  | getKeyData
  | getKeySig
  | getKeyHint
  | encrypt
  | decrypt
  | destroy
  | finalize
  deriving DecidableEq

/-- A pointer to a function of a module, or to the dummy that stands in for it. -/
inductive OpPointer where
  | own (address : ℕ)
  | dummy
  deriving DecidableEq

/-- What an `init` returns, and the alias it stores. -/
structure InitOutcome where
  rc : ℤ
  modAlias : Option CStr

/-- `struct ecryptfs_key_mod_ops`; a pointer that is `NULL` is `none`.  Of `init`, the only operation
that is called during the registration, the outcome is kept. -/
structure KeyModOps where
  init : Option InitOutcome := none
  getGenKeyParams : Option OpPointer := none
  getGenKeySubgraphTransNode : Option OpPointer := none
  getParams : Option OpPointer := none
  getParamSubgraphTransNode : Option OpPointer := none
  getBlob : Option OpPointer := none
  getKeyData : Option OpPointer := none
  getKeySig : Option OpPointer := none
  getKeyHint : Option OpPointer := none
  encrypt : Option OpPointer := none
  decrypt : Option OpPointer := none
  destroy : Option OpPointer := none
  finalize : Option OpPointer := none

namespace KeyModOps

/-- Whether an operation of the table can be called. -/
def provides (ops : KeyModOps) : KeyModOp → Bool
  | .init => ops.init.isSome
  | .getGenKeyParams => ops.getGenKeyParams.isSome
  | .getGenKeySubgraphTransNode => ops.getGenKeySubgraphTransNode.isSome
  | .getParams => ops.getParams.isSome
  | .getParamSubgraphTransNode => ops.getParamSubgraphTransNode.isSome
  | .getBlob => ops.getBlob.isSome
  | .getKeyData => ops.getKeyData.isSome
  | .getKeySig => ops.getKeySig.isSome
  | .getKeyHint => ops.getKeyHint.isSome
  | .encrypt => ops.encrypt.isSome
  | .decrypt => ops.decrypt.isSome
  | .destroy => ops.destroy.isSome
  | .finalize => ops.finalize.isSome

/-- No operation of the table is `NULL`. -/
def Complete (ops : KeyModOps) : Prop := ∀ op, ops.provides op = true

end KeyModOps

/-- `ecryptfs_dummy_init`. -/
def dummyInit : InitOutcome := ⟨0, none⟩

/-- `ecryptfs_fill_in_dummy_ops`. -/
def fillInDummyOps (ops : KeyModOps) : KeyModOps where
  init := some (ops.init.getD dummyInit)
  getGenKeyParams := some (ops.getGenKeyParams.getD .dummy)
  getGenKeySubgraphTransNode := some (ops.getGenKeySubgraphTransNode.getD .dummy)
  getParams := some (ops.getParams.getD .dummy)
  getParamSubgraphTransNode := some (ops.getParamSubgraphTransNode.getD .dummy)
  getBlob := some (ops.getBlob.getD .dummy)
  getKeyData := some (ops.getKeyData.getD .dummy)
  getKeySig := some (ops.getKeySig.getD .dummy)
  getKeyHint := some (ops.getKeyHint.getD .dummy)
  encrypt := some (ops.encrypt.getD .dummy)
  decrypt := some (ops.decrypt.getD .dummy)
  destroy := some (ops.destroy.getD .dummy)
  finalize := some (ops.finalize.getD .dummy)

theorem fillInDummyOps_complete (ops : KeyModOps) : (fillInDummyOps ops).Complete := by
  intro op
  cases op <;> rfl

/-! ## The two loops -/

/-- A module in the list of the context; a built-in one has no path. -/
structure RegisteredMod where
  modAlias : Option CStr
  libPath : Option CStr
  ops : KeyModOps

/-- What the dynamic linker makes of a file: it cannot be opened, it has no symbol
`get_key_mod_ops`, that function returns `NULL`, or it returns a table. -/
inductive Library where
  | unopened
  | noSymbol
  | noOps
  | ops (table : KeyModOps)

/-- An entry of the key-module directory, and whether the two allocations for it succeed. -/
structure DirEntry where
  name : CStr
  library : Library
  pathOk : Bool := true
  mallocOk : Bool := true

/-- The name of a file ends with `.so`. -/
def isSharedObject (name : CStr) : Bool := (lit ".so").isSuffixOf name

/-- One round of the loop over the directory `keyModDir`: the module to append, if there is one. -/
def loadKeyMod (keyModDir : CStr) (e : DirEntry) : Except ℤ (Option RegisteredMod) :=
  if !isSharedObject e.name then .ok none
  else if !e.pathOk then .error (-enomem)
  else match e.library with
    | .unopened => .ok none
    | .noSymbol => .ok none
    | .noOps => if !e.mallocOk then .error (-enomem) else .ok none
    | .ops table =>
      if !e.mallocOk then .error (-enomem)
      else
        let ops := fillInDummyOps table
        let init := ops.init.getD dummyInit
        if init.rc ≠ 0 then .ok none
        else .ok (some ⟨init.modAlias, some (keyModDir ++ lit "/" ++ e.name), ops⟩)

/-- The loop over the directory: the code, and the modules in the list. -/
def loadLoop (keyModDir : CStr) : List DirEntry → List RegisteredMod → ℤ × List RegisteredMod
  | [], mods => (0, mods)
  | e :: dir, mods =>
    match loadKeyMod keyModDir e with
    | .error rc => (rc, mods)
    | .ok none => loadLoop keyModDir dir mods
    | .ok (some m) => loadLoop keyModDir dir (mods ++ [m])

/-- The search for a module with the given alias.  The result is `none` when `strcmp` gets a null
alias on the way. -/
def hasAlias (name : CStr) : List RegisteredMod → Option Bool
  | [] => some false
  | m :: mods =>
    match m.modAlias with
    | none => none
    | some other => if other = name then some true else hasAlias name mods

/-- A built-in module: the table its function returns, and whether the allocation for it succeeds. -/
structure BuiltinMod where
  ops : Option KeyModOps
  mallocOk : Bool := true

/-- One round of the loop over the built-in modules.  The result is `none` when a null pointer is
followed. -/
def addBuiltin (b : BuiltinMod) (mods : List RegisteredMod) : Option (ℤ × List RegisteredMod) :=
  if !b.mallocOk then some (-enomem, mods)
  else match b.ops with
    | none => some (0, mods)
    | some ops =>
      match ops.init with
      | none => none
      | some init =>
        if init.rc ≠ 0 then some (0, mods)
        else
          match mods, init.modAlias with
          | [], _ => some (0, [⟨init.modAlias, none, ops⟩])
          | _ :: _, none => none
          | mods, some name =>
            (hasAlias name mods).map fun found =>
              (0, if found then mods else mods ++ [⟨init.modAlias, none, ops⟩])

/-- The loop over the built-in modules. -/
def builtinLoop : List BuiltinMod → List RegisteredMod → Option (ℤ × List RegisteredMod)
  | [], mods => some (0, mods)
  | b :: builtins, mods =>
    match addBuiltin b mods with
    | none => none
    | some (rc, mods) => if rc ≠ 0 then some (rc, mods) else builtinLoop builtins mods

/-- `ecryptfs_passphrase_ops`, its functions told apart by their places in the table; `init` fails
when it cannot allocate the alias. -/
def passphraseOps (aliasOk : Bool) : KeyModOps where
  init := some (if aliasOk then ⟨0, some "passphrase"⟩ else ⟨-enomem, none⟩)
  getParamSubgraphTransNode := some (.own 4)
  destroy := some (.own 11)
  finalize := some (.own 12)

/-- The outcomes of the other calls during a registration, and `ECRYPTFS_DEFAULT_KEY_MOD_DIR`, which
is set when the library is built. -/
structure RegisterSystem where
  keyModDir : CStr := "/usr/lib/ecryptfs"
  dirNameOk : Bool := true
  opendirOk : Bool := true
  builtinMallocOk : Bool := true
  builtinAliasOk : Bool := true

/-- `builtin_get_key_mod_ops`. -/
def builtinKeyMods (sys : RegisterSystem) : List BuiltinMod :=
  [{ ops := some (passphraseOps sys.builtinAliasOk), mallocOk := sys.builtinMallocOk }]

/-- `ecryptfs_register_key_modules`: the code and the list of the context.  The result is `none` when
a null pointer is followed. -/
def registerKeyModules (sys : RegisterSystem) (dir : List DirEntry) :
    Option (ℤ × List RegisteredMod) :=
  if !sys.dirNameOk then some (-enomem, [])
  else if !sys.opendirOk then some (-1, [])
  else match loadLoop sys.keyModDir dir [] with
    | (rc, mods) => if rc ≠ 0 then some (rc, mods) else builtinLoop (builtinKeyMods sys) mods

/-! ## What is registered -/

/-- The module that a file of the directory contributes. -/
def loadedMod (keyModDir : CStr) (e : DirEntry) : Option RegisteredMod :=
  (loadKeyMod keyModDir e).toOption.join

/-- A file contributes only modules without `NULL` operations. -/
theorem loadKeyMod_complete {keyModDir : CStr} {e : DirEntry} {m : RegisteredMod}
    (loads : loadKeyMod keyModDir e = .ok (some m)) : m.ops.Complete := by
  obtain ⟨name, library, pathOk, mallocOk⟩ := e
  cases library with
  | ops table =>
    simp only [loadKeyMod] at loads
    split_ifs at loads
    · cases loads
    · cases loads
    · obtain rfl := Option.some.inj (Except.ok.inj loads)
      exact fillInDummyOps_complete table
  | _ =>
    simp only [loadKeyMod] at loads
    split_ifs at loads <;> cases loads

theorem loadKeyMod_error {keyModDir : CStr} {e : DirEntry} {rc : ℤ}
    (failed : loadKeyMod keyModDir e = .error rc) : rc = -enomem := by
  obtain ⟨name, library, pathOk, mallocOk⟩ := e
  cases library <;> simp only [loadKeyMod] at failed <;> split_ifs at failed <;>
    exact (Except.error.inj failed).symm

/-- A loop over the directory that succeeds appends what the files contribute. -/
theorem loadLoop_ok {keyModDir : CStr} {dir : List DirEntry} {mods mods' : List RegisteredMod}
    (done : loadLoop keyModDir dir mods = (0, mods')) :
    mods' = mods ++ dir.filterMap (loadedMod keyModDir) := by
  induction dir generalizing mods with
  | nil => rw [List.filterMap_nil, List.append_nil, ← (Prod.mk.inj done).2]
  | cons e dir ih =>
    rw [loadLoop] at done
    rcases loads : loadKeyMod keyModDir e with rc | _ | m
    · rw [loads] at done
      have failed : rc = 0 := (Prod.mk.inj done).1
      rw [loadKeyMod_error loads] at failed
      exact absurd failed (by decide)
    · rw [loads] at done
      rw [ih done, List.filterMap_cons_none (by rw [loadedMod, loads]; rfl)]
    · rw [loads] at done
      rw [ih done, List.filterMap_cons_some (by rw [loadedMod, loads]; rfl), List.append_assoc]
      rfl

theorem loadedMod_complete {keyModDir : CStr} {dir : List DirEntry} :
    ∀ m ∈ dir.filterMap (loadedMod keyModDir), m.ops.Complete := by
  intro m among
  obtain ⟨e, -, loads⟩ := List.mem_filterMap.mp among
  unfold loadedMod at loads
  rcases outcome : loadKeyMod keyModDir e with rc | r
  · rw [outcome] at loads
    cases loads
  · rw [outcome] at loads
    exact loadKeyMod_complete (outcome.trans (congrArg Except.ok loads))

/-- The search tells whether the alias is in the list, if it comes to an end. -/
theorem hasAlias_iff {name : CStr} {mods : List RegisteredMod} {found : Bool}
    (done : hasAlias name mods = some found) :
    found = true ↔ ∃ m ∈ mods, m.modAlias = some name := by
  induction mods with
  | nil => simp [← Option.some.inj done]
  | cons m mods ih =>
    rw [hasAlias] at done
    rcases isAlias : m.modAlias with _ | other
    · rw [isAlias] at done
      cases done
    · rw [isAlias] at done
      simp only at done
      by_cases same : other = name
      · rw [if_pos same] at done
        simp [← Option.some.inj done, isAlias, same]
      · rw [if_neg same] at done
        simp [ih done, isAlias, same]

/-- The table of the built-in module has gaps. -/
theorem passphraseOps_gaps (aliasOk : Bool) : ¬ (passphraseOps aliasOk).Complete :=
  fun complete => nomatch complete .encrypt

/-- What becomes of the built-in module: it is appended with its table as it is, unless its `init`
fails or the list has its alias already. -/
theorem builtinLoop_passphrase {sys : RegisterSystem} {mods mods' : List RegisteredMod}
    (done : builtinLoop (builtinKeyMods sys) mods = some (0, mods')) :
    mods' = if (∃ m ∈ mods, m.modAlias = some (lit "passphrase")) ∨ sys.builtinAliasOk = false then mods
      else mods ++ [⟨some "passphrase", none, passphraseOps true⟩] := by
  obtain ⟨dir, dirNameOk, opendirOk, mallocOk, aliasOk⟩ := sys
  cases mallocOk with
  | false => exact nomatch done
  | true =>
    cases aliasOk with
    | false =>
      rw [if_pos (.inr rfl)]
      exact (Prod.mk.inj (Option.some.inj done)).2.symm
    | true =>
      rcases mods with _ | ⟨m, mods⟩
      · exact (Prod.mk.inj (Option.some.inj done)).2.symm
      · rcases search : hasAlias "passphrase" (m :: mods) with _ | found
        · simp [builtinLoop, builtinKeyMods, addBuiltin, passphraseOps, search] at done
        · have isFound := hasAlias_iff search
          simp only [builtinLoop, builtinKeyMods, addBuiltin, passphraseOps, search, Bool.not_true,
            Bool.false_eq_true, if_false, if_true, ne_eq, not_true_eq_false, Option.map_some,
            Option.some.injEq, Prod.mk.injEq, true_and] at done
          rw [← done, if_congr (show found = true ↔ _ by simpa using isFound) rfl rfl]
          simp [passphraseOps]

/-! ## A loop over the registered modules -/

/-- The loop of `ecryptfs_process_key_gen_decision_graph` over the list of the context: the code with
which it ends, for what the operations answer and what becomes of a transition.  The result is `none`
when a null pointer is called. -/
def keyGenLoop {τ : Type} (call : OpPointer → ℤ × Option τ) (addTransition : τ → ℤ) :
    List RegisteredMod → Option ℤ
  | [] => some 0
  | m :: mods =>
    match m.ops.getGenKeySubgraphTransNode with
    | none => none
    | some op =>
      match call op with
      | (0, some node) =>
        if addTransition node ≠ 0 then some (addTransition node)
        else keyGenLoop call addTransition mods
      | _ => keyGenLoop call addTransition mods

/-- Over modules with all operations the loop comes to an end. -/
theorem keyGenLoop_complete {τ : Type} (call : OpPointer → ℤ × Option τ) (addTransition : τ → ℤ)
    {mods : List RegisteredMod} (complete : ∀ m ∈ mods, m.ops.Complete) :
    (keyGenLoop call addTransition mods).isSome := by
  induction mods with
  | nil => rfl
  | cons m mods ih =>
    have rest := ih fun m' among => complete m' (List.mem_cons_of_mem m among)
    have provided : m.ops.getGenKeySubgraphTransNode.isSome :=
      complete m List.mem_cons_self .getGenKeySubgraphTransNode
    obtain ⟨op, isOp⟩ := Option.isSome_iff_exists.mp provided
    rw [keyGenLoop, isOp]
    simp only
    split
    · split_ifs
      · rfl
      · exact rest
    · exact rest

/-! ## What is registered -/

/-- **When the registered modules have all operations.**  After a successful registration no module
of the list has a `NULL` operation exactly when some file of the directory contributes a module named
`passphrase`, or the built-in module of that name could not be initialized. -/
theorem registered_complete_iff (sys : RegisterSystem) (dir : List DirEntry)
    (mods : List RegisteredMod) (done : registerKeyModules sys dir = some (0, mods)) :
    (∀ m ∈ mods, m.ops.Complete) ↔
      (∃ e ∈ dir, ∃ m, loadedMod sys.keyModDir e = some m ∧ m.modAlias = some (lit "passphrase")) ∨
        sys.builtinAliasOk = false := by
  unfold registerKeyModules at done
  split_ifs at done
  · exact nomatch done
  · exact nomatch done
  · rcases loads : loadLoop sys.keyModDir dir [] with ⟨rc, loaded⟩
    rw [loads] at done
    simp only at done
    split_ifs at done with failed
    · exact absurd (Prod.mk.inj (Option.some.inj done)).1 failed
    · obtain rfl := not_not.mp failed
      have contributed := loadLoop_ok loads
      rw [List.nil_append] at contributed
      have complete := @loadedMod_complete sys.keyModDir dir
      rw [← contributed] at complete
      have named : (∃ m ∈ loaded, m.modAlias = some (lit "passphrase")) ↔
          ∃ e ∈ dir, ∃ m, loadedMod sys.keyModDir e = some m ∧ m.modAlias = some (lit "passphrase") := by
        rw [contributed]
        simp only [List.mem_filterMap]
        constructor
        · rintro ⟨m, ⟨e, among, isMod⟩, isName⟩
          exact ⟨e, among, m, isMod, isName⟩
        · rintro ⟨e, among, m, isMod, isName⟩
          exact ⟨m, ⟨e, among, isMod⟩, isName⟩
      rw [builtinLoop_passphrase done, ← named]
      split_ifs with dropped
      · exact iff_of_true complete dropped
      · refine iff_of_false (fun all => passphraseOps_gaps true ?_) dropped
        exact all _ (List.mem_append_right _ List.mem_cons_self)

/-- The passphrase module as a shared object. -/
def passphraseEntry : DirEntry := { name := "passphrase.so", library := .ops (passphraseOps true) }

/-- The passphrase module as it is registered from the directory. -/
def passphraseFromDir : RegisteredMod where
  modAlias := some "passphrase"
  libPath := some "/usr/lib/ecryptfs/passphrase.so"
  ops := fillInDummyOps (passphraseOps true)

/-- The directory holds the passphrase module as a shared object as well, and the key generation goes over it. -/
theorem registered_complete_passphrase :
    registerKeyModules {} [passphraseEntry] = some (0, [passphraseFromDir]) ∧
      (∀ m ∈ [passphraseFromDir], m.ops.Complete) ∧
      ∀ (call : OpPointer → ℤ × Option ℕ) (addTransition : ℕ → ℤ),
        (keyGenLoop call addTransition [passphraseFromDir]).isSome := by
  have done : registerKeyModules {} [passphraseEntry] = some (0, [passphraseFromDir]) := rfl
  have complete := (registered_complete_iff {} [passphraseEntry] [passphraseFromDir] done).mpr
    (.inl ⟨passphraseEntry, List.mem_cons_self, passphraseFromDir, rfl, rfl⟩)
  exact ⟨done, complete, fun call addTransition => keyGenLoop_complete call addTransition complete⟩

/-- With an empty directory the built-in module is registered as it is, and the key generation calls
a null pointer. -/
theorem registered_builtin_gaps :
    registerKeyModules {} [] = some (0, [⟨some "passphrase", none, passphraseOps true⟩]) ∧
      (¬ ∀ (sys : RegisterSystem) (dir : List DirEntry) (mods : List RegisteredMod),
        registerKeyModules sys dir = some (0, mods) → ∀ m ∈ mods, m.ops.Complete) ∧
      keyGenLoop (fun _ => (0, (none : Option ℕ))) (fun _ => 0)
        [⟨some "passphrase", none, passphraseOps true⟩] = none := by
  have registered : registerKeyModules {} [] =
      some (0, [⟨some "passphrase", none, passphraseOps true⟩]) := rfl
  refine ⟨registered, fun complete => ?_, rfl⟩
  exact passphraseOps_gaps true (complete {} [] _ registered _ List.mem_cons_self)

end Ecryptfs
