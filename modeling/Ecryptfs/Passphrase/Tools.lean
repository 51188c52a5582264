import Ecryptfs.Passphrase.Keyring
import Ecryptfs.Passphrase.Prompts
import Ecryptfs.Passphrase.WrapFile

/-!
# The tools for the wrapped passphrase

The programs `ecryptfs-wrap-passphrase`, `ecryptfs-rewrap-passphrase`, `ecryptfs-unwrap-passphrase` and
`ecryptfs-insert-wrapped-passphrase-into-keyring` take their passphrases from the terminal, from the standard
input or from their arguments, and pass them on to the library.  What a call asks for is computed first
(`Asked`); the module for PAM wraps and rewraps the same file when a user logs in or changes the password.
-/

namespace Ecryptfs

/-- What a program has of the outside: its standard input, the allocations of its prompts, whether there is
the file it takes by default, the outcomes of reading and replacing a file, and what is in its buffer. -/
structure ToolIo where
  stdin : List UInt8
  malloc : ℕ → Bool
  defaultFile : Bool
  read : ReadIo
  write : WriteIo
  uninit : Vector UInt8 16

/-- What a call asks for: the length of a null pointer is taken, or the program ends with a code before it
does anything, or it goes on with its passphrases. -/
inductive Asked (α : Type) where
  | crash
  | exit (rc : ℤ)
  | go (a : α)

/-- How a program ends, with what it prints of a passphrase. -/
inductive ToolEnd where
  | crashed
  | exited (rc : ℤ) (printed : Option CStr)
  deriving DecidableEq

/-- A program is run for what it is asked for. -/
def Asked.run {α σ : Type} (asked : Asked α) (s : σ) (act : α → σ × ToolEnd) : σ × ToolEnd :=
  match asked with
  | .crash => (s, .crashed)
  | .exit rc => (s, .exited rc none)
  | .go a => act a

namespace ToolIo

variable (io : ToolIo)

/-- The passphrases of the first three prompts. -/
def first : Option CStr × List UInt8 := getPassphrase (io.malloc 0) io.stdin
def second : Option CStr × List UInt8 := getPassphrase (io.malloc 1) io.first.2
def third : Option CStr × List UInt8 := getPassphrase (io.malloc 2) io.second.2

/-- Two passphrases that are there and not too long, or the end with a code. -/
def checkedPair (rc : ℤ) : Option CStr → Option CStr → Asked (CStr × CStr)
  | some a, some b =>
    if maxPassphraseBytes < a.length ∨ maxPassphraseBytes < b.length then .exit rc else .go (a, b)
  | _, _ => .exit rc

/-- One passphrase that is there and not too long. -/
def checked : Option CStr → Asked CStr
  | some a => if maxPassphraseBytes < a.length then .exit 0 else .go a
  | none => .exit 0

/-- The arguments of `ecryptfs-wrap-passphrase`: the passphrase and the wrapping passphrase. -/
def wrapAsked : List CStr → Asked (CStr × CStr)
  | [_] => checkedPair 1 io.first.1 (io.first.1.bind fun _ => io.second.1)
  | [_, dash] =>
    if dash = lit "-" then checkedPair 1 io.first.1 (io.first.1.bind fun _ => io.second.1) else .exit 0
  | [_, passphrase, wrapping] => checkedPair 1 (some passphrase) (some wrapping)
  | _ => .exit 0

/-- The arguments of `ecryptfs-rewrap-passphrase`: the old wrapping passphrase and the new one, which at the
terminal is asked for twice. -/
def rewrapAsked : List CStr → Asked (CStr × CStr)
  | [_] =>
    match io.second.1, io.third.1 with
    | some new, some again => if new ≠ again then .exit 1 else checkedPair 0 io.first.1 (some new)
    | _, _ => .crash
  | [_, dash] => if dash = lit "-" then checkedPair 0 io.first.1 io.second.1 else .exit 0
  | [_, old, new] => checkedPair 0 (some old) (some new)
  | _ => .exit 0

/-- The arguments of `ecryptfs-unwrap-passphrase`.  An argument of one character, other than the dash, is
no passphrase here. -/
def unwrapAsked : List CStr → Asked CStr
  | [] => if io.defaultFile = false then .exit 0 else checked io.first.1
  | [_] => checked io.first.1
  | [_, arg] =>
    if arg.length = 1 ∧ arg.head? = some 45 then checked io.first.1
    else if arg.length ≠ 1 ∨ arg.head? = some 45 then checked (some arg)
    else .exit 0
  | _ => .exit 0

/-- The arguments of `ecryptfs-insert-wrapped-passphrase-into-keyring`. -/
def insertAsked : List CStr → Asked CStr
  | [] => if io.defaultFile = false then .exit 0 else checked io.first.1
  | [_] => checked io.first.1
  | [_, arg] =>
    if arg.length = 1 ∧ arg.head? = some 45 then checked io.first.1
    else if arg.length ≠ 1 ∨ arg.head? ≠ some 45 then checked (some arg)
    else .exit 0
  | _ => .exit 0

/-! ### What is asked for -/

theorem checkedPair_go {rc : ℤ} {a b : Option CStr} {P W : CStr} (asked : checkedPair rc a b = .go (P, W)) :
    a = some P ∧ b = some W ∧ P.length ≤ maxPassphraseBytes ∧ W.length ≤ maxPassphraseBytes := by
  unfold checkedPair at asked
  split at asked
  · split_ifs at asked with long
    obtain ⟨rfl, rfl⟩ := Prod.mk.inj (Asked.go.inj asked)
    rw [not_or, not_lt, not_lt] at long
    exact ⟨rfl, rfl, long⟩
  · cases asked

/-- A passphrase from a prompt is a text. -/
theorem getPassphrase_text {malloc : Bool} {stdin : List UInt8} {P : CStr}
    (read : (getPassphrase malloc stdin).1 = some P) : 0 ∉ P := by
  have cut : ∀ line : CStr, 0 ∉ line → 0 ∉ cutLast 10 line := by
    intro line noNul among
    unfold cutLast at among
    split_ifs at among
    · have inside := (List.dropWhile_sublist _).subset (List.mem_of_mem_drop (List.mem_reverse.mp among))
      exact noNul (List.mem_reverse.mp inside)
    · exact noNul among
  unfold getPassphrase at read
  split_ifs at read
  split at read
  · cases read
  · dsimp only at read
    split_ifs at read
    obtain rfl := Option.some.inj read
    exact cut _ (notMem_cString _)

/-- What is wrapped is a text that is not too long. -/
theorem wrapAsked_go {args : List CStr} (texts : ∀ a ∈ args, 0 ∉ a) {P W : CStr}
    (asked : io.wrapAsked args = .go (P, W)) :
    0 ∉ P ∧ P.length ≤ maxPassphraseBytes ∧ W.length ≤ maxPassphraseBytes := by
  have prompted : checkedPair 1 io.first.1 (io.first.1.bind fun _ => io.second.1) = .go (P, W) →
      0 ∉ P ∧ P.length ≤ maxPassphraseBytes ∧ W.length ≤ maxPassphraseBytes := by
    intro asked
    obtain ⟨read, -, fits⟩ := checkedPair_go asked
    exact ⟨getPassphrase_text read, fits⟩
  unfold wrapAsked at asked
  split at asked
  · exact prompted asked
  · split_ifs at asked
    exact prompted asked
  · obtain ⟨same, -, fits⟩ := checkedPair_go asked
    obtain rfl := Option.some.inj same
    exact ⟨texts _ (.tail _ (.head _)), fits⟩
  · cases asked

/-- A new wrapping passphrase is not too long. -/
theorem rewrapAsked_go {args : List CStr} {old new : CStr} (asked : io.rewrapAsked args = .go (old, new)) :
    new.length ≤ maxPassphraseBytes := by
  unfold rewrapAsked at asked
  split at asked
  · split at asked
    · split_ifs at asked
      exact (checkedPair_go asked).2.2.2
    · cases asked
  · split_ifs at asked
    exact (checkedPair_go asked).2.2.2
  · exact (checkedPair_go asked).2.2.2
  · cases asked

end ToolIo

/-! ## The programs -/

/-- The wrapped-passphrase file of a user, the file with a cleartext passphrase that the setup has left for
the module for PAM, and the keyring. -/
structure Vault where
  file : Option (List UInt8)
  cleartext : Option (List UInt8)
  keyring : Keyring

/-- The outcomes of the calls of the module for PAM. -/
structure PamIo where
  wrapFile : WrapFileIo
  read : ReadIo
  write : WriteIo
  uninit : Vector UInt8 16

namespace Vault

variable (nss : Nss) (salt : Salt)

/-- The `main` of `ecryptfs-wrap-passphrase`. -/
def wrapMain (io : ToolIo) (args : List CStr) (v : Vault) : Vault × ToolEnd :=
  (io.wrapAsked args).run v fun (passphrase, wrapping) =>
    let wrapped := wrapPassphrase nss io.uninit io.write v.file wrapping salt passphrase
    ({ v with file := wrapped.2 }, .exited (if wrapped.1 ≠ 0 then 1 else 0) none)

/-- The `main` of `ecryptfs-rewrap-passphrase`. -/
def rewrapMain (io : ToolIo) (args : List CStr) (v : Vault) : Vault × ToolEnd :=
  (io.rewrapAsked args).run v fun (old, new) =>
    match unwrapPassphrase nss io.read v.file old salt with
    | .error _ => (v, .exited 1 none)
    | .ok passphrase =>
      let wrapped := wrapPassphrase nss io.uninit io.write v.file new salt (cString passphrase)
      ({ v with file := wrapped.2 }, .exited (if wrapped.1 ≠ 0 then 1 else 0) none)

/-- The `main` of `ecryptfs-unwrap-passphrase`. -/
def unwrapMain (io : ToolIo) (args : List CStr) (v : Vault) : Vault × ToolEnd :=
  (io.unwrapAsked args).run v fun wrapping =>
    match unwrapPassphrase nss io.read v.file wrapping salt with
    | .error _ => (v, .exited 1 none)
    | .ok passphrase => (v, .exited 0 (some (cString passphrase)))

/-- The `main` of `ecryptfs-insert-wrapped-passphrase-into-keyring`. -/
def insertMain (io : ToolIo) (adds : ℕ → AddCalls) (args : List CStr) (v : Vault) : Vault × ToolEnd :=
  (io.insertAsked args).run v fun wrapping =>
    let inserted := insertWrappedPassphraseIntoKeyring nss adds io.read v.file wrapping salt v.keyring
    ({ v with keyring := inserted.2 }, .exited (if inserted.1 < 0 then 1 else 0) none)

/-! ## The module for PAM -/

/-- `wrap_passphrase_if_necessary`, for a user with a name. -/
def wrapPassphraseIfNecessary (io : PamIo) (passphrase : Option CStr) (v : Vault) : ℤ × Vault :=
  match v.cleartext, v.file, passphrase with
  | some src, none, some (c :: rest) =>
    let result := wrapPassphraseFile nss io.uninit io.wrapFile none (c :: rest) salt src
    (result.rc, { v with file := result.dest, cleartext := result.src })
  | _, _, _ => (0, v)

/-- The part of `pam_sm_authenticate` that works with the file and the keyring, with the argument `unwrap`: what is
behind the exits for a user without the file `auto-mount` or whose directory is mounted. -/
def authenticate (io : PamIo) (adds : ℕ → AddCalls) (passphrase : Option CStr) (v : Vault) : Vault :=
  match passphrase with
  | none => v
  | some passphrase =>
    let (rc, v) := wrapPassphraseIfNecessary nss salt io (some passphrase) v
    if rc = 0 then
      { v with keyring :=
          (insertWrappedPassphraseIntoKeyring nss adds io.read v.file passphrase salt v.keyring).2 }
    else v

/-- What the second pass of `pam_sm_chauthtok` does with the file. -/
def chauthtok (io : PamIo) (old new : Option CStr) (v : Vault) : Vault :=
  let (rc, v) := wrapPassphraseIfNecessary nss salt io new v
  if rc = 0 then
    match old, new with
    | some old, some (c :: rest) =>
      match unwrapPassphrase nss io.read v.file old salt with
      | .error _ => v
      | .ok passphrase =>
        { v with file :=
            (wrapPassphrase nss io.uninit io.write v.file (c :: rest) salt (cString passphrase)).2 }
    | _, _ => v
  else v

end Vault

end Ecryptfs
