import Ecryptfs.Mount.Modules

/-!
# The text of a salt

`tf_salt` converts the text of its node by `from_hex`, which reads sixteen characters from the pointer it
gets, whatever the length of the text: nothing on the way to the node checks it.  A text that ends earlier
leaves the rest of the salt to the memory behind it.  `saltDetermined_iff` says how long a text has to be
for the salt, and with it the key, to be a function of the text.
-/

namespace Ecryptfs

open Memory

/-- The text that `tf_salt` takes from its node. -/
def saltHexOf (w : MountWorld) (n : NodeId) : CStr :=
  match (w.nodes n).val with
  | some v => v
  | none => printed (w.nodes n).defaultVal

/-- The part of `tf_salt` after the salt is converted. -/
def addSaltedKey (env : MountEnv) (salt : Salt) (n : NodeId) (w : MountWorld) :
    Except Stop (ℤ × MountWorld) :=
  let w := clearVal w n
  match w.stack with
  | some passwd :: rest =>
    let w := { w with stack := rest }
    match addPassphraseKey env passwd salt with
    | (rc, sig) =>
      if rc < 0 then .ok (rc, w) else .ok (defaultTok, w.push (param "ecryptfs_sig=" sig))
  | _ => .error .fault

/-- The outside takes part in `tf_salt` by the memory behind the text only through the salt. -/
theorem tfSalt_eq (env : MountEnv) (n : NodeId) (w : MountWorld) : tfSalt env n w =
    addSaltedKey env (fromHex (holding (saltHexOf w n ++ [0]) env.behindSalt)) n w := by
  unfold tfSalt addSaltedKey saltHexOf
  rfl

theorem addSaltedKey_behind (env : MountEnv) (behind : Bytes) (salt : Salt) (n : NodeId) (w : MountWorld) :
    addSaltedKey { env with behindSalt := behind } salt n w = addSaltedKey env salt n w := by
  unfold addSaltedKey addPassphraseKey
  rcases stack : (clearVal w n).stack with _ | ⟨_ | passwd, rest⟩ <;> simp only [stack]

/-- A text fixes the salt that is converted from it, and with it what `tf_salt` does. -/
structure SaltDetermined (text : CStr) : Prop where
  salt : ∀ behind behind' : Bytes,
    fromHex (holding (text ++ [0]) behind) = fromHex (holding (text ++ [0]) behind')
  key : ∀ (env : MountEnv) (behind : Bytes) (n : NodeId) (w : MountWorld), saltHexOf w n = text →
    tfSalt { env with behindSalt := behind } n w = tfSalt env n w

/-- The two characters that make up the byte number `x` of a salt. -/
def saltPair (src : Bytes) (x : ℕ) : CStr := ([src (2 * x), src (2 * x + 1)] : CStr).takeWhile (· ≠ 0)

theorem getElem_fromHex (src : Bytes) {x : ℕ} (inside : x < 8) :
    (fromHex src)[x] = UInt8.ofNat (strtolHex (saltPair src x) % 256).toNat := by
  simp [fromHex, saltPair]

/-- Each pair is read from the text and its terminator, or begins with the terminator. -/
theorem saltPair_congr {text : CStr} (long : 14 ≤ text.length) (behind behind' : Bytes) {x : ℕ}
    (inside : x < 8) :
    saltPair (holding (text ++ [0]) behind) x = saltPair (holding (text ++ [0]) behind') x := by
  have size : (text ++ [0]).length = text.length + 1 := by simp
  have same : ∀ i, i ≤ text.length →
      holding (text ++ [0]) behind i = holding (text ++ [0]) behind' i := by
    intro i known
    rw [holding_of_lt (by omega), holding_of_lt (by omega)]
  by_cases known : 2 * x + 1 ≤ text.length
  · rw [saltPair, saltPair, same _ (by omega), same _ known]
  · have isEnd : 2 * x = text.length := by omega
    have ends : ∀ beyond, saltPair (holding (text ++ [0]) beyond) x = [] := by
      intro beyond
      have zero : holding (text ++ [0]) beyond (2 * x) = 0 := by
        rw [isEnd, holding_of_lt (by omega)]
        simp
      rw [saltPair, zero]
      rfl
    rw [ends, ends]

/-- The last pair lies behind the terminator of a shorter text. -/
theorem saltPair_behind {text : CStr} (short : text.length < 14) (c : UInt8) :
    saltPair (holding (text ++ [0]) fun _ => c) 7 = [c, c].takeWhile (· ≠ 0) := by
  have beyond : ∀ i, text.length < i → holding (text ++ [0]) (fun _ => c) i = c := by
    intro i behind
    obtain ⟨k, rfl⟩ := Nat.exists_eq_add_of_le (Nat.succ_le_of_lt behind)
    have known := holding_length_add (text ++ [0]) (fun _ => c) k
    rwa [List.length_append, List.length_singleton] at known
  rw [saltPair, beyond _ (by omega), beyond _ (by omega)]

/-- **How long the text of a salt has to be.**  The salt, and with it the key and its signature, depends
on nothing but the text exactly when the text has at least 14 characters. -/
theorem saltDetermined_iff (text : CStr) : SaltDetermined text ↔ 14 ≤ text.length := by
  constructor
  · intro determined
    by_contra short
    have same := congrArg (fun salt : Salt => salt[7]) (determined.salt (fun _ => 0) fun _ => 49)
    rw [getElem_fromHex _ (by decide), getElem_fromHex _ (by decide),
      saltPair_behind (not_le.mp short), saltPair_behind (not_le.mp short)] at same
    exact absurd same (by decide)
  · intro long
    have salt : ∀ behind behind' : Bytes,
        fromHex (holding (text ++ [0]) behind) = fromHex (holding (text ++ [0]) behind') := by
      intro behind behind'
      refine Vector.ext fun x inside => ?_
      rw [getElem_fromHex _ inside, getElem_fromHex _ inside, saltPair_congr long behind behind' inside]
    refine ⟨salt, fun env behind n w isText => ?_⟩
    rw [tfSalt_eq, tfSalt_eq, isText, addSaltedKey_behind, salt behind env.behindSalt]

/-- The option `salt=00` leaves seven bytes of the salt to the memory behind it. -/
theorem saltDetermined_fails : ¬ SaltDetermined "00" := by
  intro determined
  have same := determined.salt (fun _ => 0) fun _ => 49
  exact absurd same (by decide)

end Ecryptfs
