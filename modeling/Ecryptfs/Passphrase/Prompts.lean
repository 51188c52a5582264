import Ecryptfs.Passphrase.Signature

/-!
# Prompts for a passphrase

The manager asks for a passphrase twice by `get_string`, which reads single characters into a buffer of 64
bytes; the other tools ask by `ecryptfs_get_passphrase`, which reads a line by `fgets` into a buffer of 66.
The first stops when its buffer is full, gives up the last character for the terminator, and leaves the
rest of the line to be read at the next prompt; `promptsAgree_iff` says for which passphrases the two
prompts nevertheless do the same.
-/

namespace Ecryptfs

/-- What the calls of a prompt come to: the codes of `tcgetattr` and `tcsetattr` when the echo is switched
off and on again. -/
structure EchoCalls where
  disable : ℤ
  enable : ℤ

/-- `mygetchar`, on a character that is there to be read. -/
def mygetchar (c : UInt8) : UInt8 := if c = 13 then 10 else c

/-- What a loop of `get_string` has stored, whether it met the end of the input, and what is left of it. -/
structure ReadChars where
  stored : List UInt8
  eof : Bool
  rest : List UInt8

/-- The loop of `get_string` with a buffer of `len` bytes, `val` being stored already. -/
def Stdin.getStringLoop (len : ℕ) (val : List UInt8) : List UInt8 → ReadChars
  | [] => { stored := val ++ [10], eof := true, rest := [] }
  | c :: input =>
    let val := val ++ [mygetchar c]
    if mygetchar c ≠ 10 ∧ val.length < len then Stdin.getStringLoop len val input
    else { stored := val, eof := false, rest := input }

/-- The code of a prompt, the text in its buffer afterwards, and what is left of the input. -/
structure Prompted where
  rc : ℤ
  text : CStr
  rest : List UInt8
  deriving DecidableEq

/-- `get_string` without echo, on a buffer with the text `old`. -/
def Stdin.getString (calls : EchoCalls) (len : ℕ) (old : CStr) (stdin : List UInt8) : Prompted :=
  if calls.disable ≠ 0 then { rc := calls.disable, text := old, rest := stdin }
  else
    let read := Stdin.getStringLoop len [] stdin
    let count := read.stored.length
    if count = 1 ∧ read.eof = true then { rc := -eio, text := [], rest := read.rest }
    else
      -- the terminator replaces the character that was stored last, a newline or not
      let last := if len < count then len - 1 else count - 1
      { rc := calls.enable, text := cString (read.stored.take last), rest := read.rest }

/-- What the calls of `read_passphrase_salt` come to: the `malloc` of the second buffer, with the text that
happens to be in it, and the calls of the two prompts. -/
structure PromptCalls where
  malloc : Bool
  uninit : CStr
  first : EchoCalls
  second : EchoCalls

/-- `read_passphrase_salt` on a buffer with the text `pass`, `none` when it writes to a null pointer; the
salt is not touched. -/
def readPassphraseSalt (calls : PromptCalls) (pass : CStr) (stdin : List UInt8) : Option Prompted :=
  if calls.malloc = false then none
  else
    let first := Stdin.getString calls.first maxPassphraseBytes pass stdin
    if first.rc ≠ 0 then some first
    else if first.text = [] then some { first with rc := -einval }
    else
      let second := Stdin.getString calls.second maxPassphraseBytes calls.uninit first.rest
      if second.rc ≠ 0 then some { first with rc := second.rc, rest := second.rest }
      else if first.text ≠ second.text then some { first with rc := -einval, rest := second.rest }
      else some { first with rest := second.rest }

/-- `ecryptfs_get_passphrase`: the passphrase, if there is one, and what is left of the input.  The echo is
switched without looking at the codes. -/
def getPassphrase (malloc : Bool) (stdin : List UInt8) : Option CStr × List UInt8 :=
  if malloc = false then (none, stdin)
  else match fgets (maxPassphraseBytes + 2) stdin with
    | none => (none, stdin)
    | some (stored, rest) =>
      let passphrase := cutLast 10 (cString stored)
      if maxPassphraseBytes < passphrase.length then (none, rest) else (some passphrase, rest)

/-- The characters of a line that stand for themselves. -/
structure Typed (line : CStr) : Prop where
  noNul : 0 ∉ line
  noNewline : 10 ∉ line
  noReturn : 13 ∉ line

/-- Memory is there, and the echo can be switched. -/
structure PromptCalls.Succeed (calls : PromptCalls) : Prop where
  malloc : calls.malloc = true
  disable : calls.first.disable = 0 ∧ calls.second.disable = 0
  enable : calls.first.enable = 0 ∧ calls.second.enable = 0

/-- Typed at the prompts, a passphrase of at most 64 characters is taken as it is by both, and no part of
the lines is left; a longer one is refused by both. -/
structure PromptsAgree (P : CStr) : Prop where
  accepted : P.length ≤ maxPassphraseBytes → ∀ calls : PromptCalls, calls.Succeed → ∀ pass rest,
    readPassphraseSalt calls pass (P ++ 10 :: (P ++ 10 :: rest)) = some ⟨0, P, rest⟩ ∧
      getPassphrase true (P ++ 10 :: rest) = (some P, rest)
  refused : maxPassphraseBytes < P.length → ∀ calls : PromptCalls, calls.Succeed → ∀ pass rest,
    (∀ r, readPassphraseSalt calls pass (P ++ 10 :: (P ++ 10 :: rest)) = some r → r.rc ≠ 0) ∧
      (getPassphrase true (P ++ 10 :: rest)).1 = none

variable {P : CStr} {calls : PromptCalls}

/-! ## One line -/

theorem Typed.tail {c : UInt8} {line : CStr} (typed : Typed (c :: line)) :
    c ≠ 10 ∧ mygetchar c = c ∧ Typed line := by
  have noNul := List.not_mem_of_not_mem_cons typed.noNul
  have noNewline := List.ne_and_not_mem_of_not_mem_cons typed.noNewline
  have noReturn := List.ne_and_not_mem_of_not_mem_cons typed.noReturn
  exact ⟨noNewline.1.symm, if_neg noReturn.1.symm, noNul, noNewline.2, noReturn.2⟩

theorem Typed.drop {line : CStr} (typed : Typed line) (n : ℕ) : Typed (line.drop n) :=
  ⟨mt List.mem_of_mem_drop typed.noNul, mt List.mem_of_mem_drop typed.noNewline,
    mt List.mem_of_mem_drop typed.noReturn⟩

/-- A line for which there is room is read with its newline. -/
theorem getStringLoop_line {len : ℕ} {line : CStr} (typed : Typed line) {val : List UInt8}
    (fits : val.length + line.length < len) (rest : List UInt8) :
    Stdin.getStringLoop len val (line ++ 10 :: rest) = ⟨val ++ line ++ [10], false, rest⟩ := by
  induction line generalizing val with
  | nil =>
    have newline : mygetchar 10 = 10 := rfl
    rw [List.nil_append, Stdin.getStringLoop, newline, if_neg fun more => more.1 rfl, List.append_nil]
  | cons c line ih =>
    obtain ⟨notNewline, same, typed⟩ := typed.tail
    rw [List.length_cons] at fits
    have size : (val ++ [c]).length = val.length + 1 := by simp
    rw [List.cons_append, Stdin.getStringLoop, same, if_pos ⟨notNewline, by omega⟩, ih typed (by omega)]
    simp

/-- Of a longer line the buffer is filled. -/
theorem getStringLoop_full {len : ℕ} {line : CStr} (typed : Typed line) {val : List UInt8}
    (room : val.length < len) (long : len ≤ val.length + line.length) (rest : List UInt8) :
    Stdin.getStringLoop len val (line ++ rest) =
      ⟨val ++ line.take (len - val.length), false, line.drop (len - val.length) ++ rest⟩ := by
  induction line generalizing val with
  | nil =>
    rw [List.length_nil] at long
    omega
  | cons c line ih =>
    obtain ⟨notNewline, same, typed⟩ := typed.tail
    rw [List.length_cons] at long
    have size : (val ++ [c]).length = val.length + 1 := by simp
    obtain ⟨left, isLeft⟩ := Nat.exists_eq_add_of_lt room
    rw [show len - val.length = left + 1 by omega, List.cons_append, Stdin.getStringLoop, same,
      List.take_succ_cons, List.drop_succ_cons]
    by_cases more : (val ++ [c]).length < len
    · rw [if_pos ⟨notNewline, more⟩, ih typed more (by omega), show len - (val ++ [c]).length = left by omega]
      simp
    · have full : left = 0 := by omega
      rw [if_neg fun both => more both.2, full]
      rfl

/-- `get_string` takes the first 63 characters of a line, and leaves what is behind the first 64. -/
theorem getString_line {calls : EchoCalls} (disable : calls.disable = 0) (old : CStr) {line : CStr}
    (typed : Typed line) (rest : List UInt8) :
    Stdin.getString calls maxPassphraseBytes old (line ++ 10 :: rest) =
      { rc := calls.enable, text := line.take 63
        rest := if line.length < maxPassphraseBytes then rest else line.drop 64 ++ 10 :: rest } := by
  unfold Stdin.getString
  rw [if_neg fun failed => failed disable]
  by_cases fits : line.length < maxPassphraseBytes
  · rw [getStringLoop_line typed (by simpa using fits), if_pos fits, List.nil_append]
    have size : (line ++ [10]).length = line.length + 1 := by simp
    have small : line.length ≤ 63 := Nat.le_of_lt_succ fits
    dsimp only
    rw [if_neg fun ended => Bool.false_ne_true ended.2, size, if_neg (by omega), Nat.add_sub_cancel,
      List.take_left, cString_of_notMem typed.noNul, List.take_of_length_le small]
  · have long : 64 ≤ line.length := not_lt.mp fits
    have read : Stdin.getStringLoop maxPassphraseBytes [] (line ++ 10 :: rest) =
        ⟨line.take 64, false, line.drop 64 ++ 10 :: rest⟩ :=
      getStringLoop_full typed (by decide) (by simpa using not_lt.mp fits) (10 :: rest)
    have size : (line.take 64).length = 64 := List.length_take_of_le long
    have noNul : 0 ∉ line.take 63 := fun among => typed.noNul (List.mem_of_mem_take among)
    rw [read, if_neg fits]
    dsimp only
    rw [if_neg fun ended => Bool.false_ne_true ended.2, size, if_neg (by decide), List.take_take,
      min_eq_left (by decide), cString_of_notMem noNul]

/-! ## Both prompts -/

/-- No call fails. -/
def promptsSucceed : PromptCalls := ⟨true, [], ⟨0, 0⟩, ⟨0, 0⟩⟩

theorem promptsSucceed_succeed : promptsSucceed.Succeed := ⟨rfl, ⟨rfl, rfl⟩, rfl, rfl⟩

/-- What the two prompts of the manager take of two equal lines. -/
def secondText (P : CStr) : CStr := if P.length < maxPassphraseBytes then P else (P.drop 64).take 63

theorem readPassphraseSalt_lines (works : calls.Succeed) (typed : Typed P) (nonempty : P ≠ [])
    (pass : CStr) (rest : List UInt8) :
    ∃ left, readPassphraseSalt calls pass (P ++ 10 :: (P ++ 10 :: rest)) =
      some ⟨if P.take 63 = secondText P then 0 else -einval, P.take 63, left⟩ ∧
        (P.length < maxPassphraseBytes → left = rest) := by
  have first := getString_line works.disable.1 pass typed (P ++ 10 :: rest)
  have some_ : P.take 63 ≠ [] := by simp [nonempty]
  have second : ∃ left, Stdin.getString calls.second maxPassphraseBytes calls.uninit
      (if P.length < maxPassphraseBytes then P ++ 10 :: rest else P.drop 64 ++ 10 :: (P ++ 10 :: rest)) =
        ⟨0, secondText P, left⟩ ∧ (P.length < maxPassphraseBytes → left = rest) := by
    unfold secondText
    by_cases fits : P.length < maxPassphraseBytes
    · have small : P.length ≤ 63 := Nat.le_of_lt_succ fits
      rw [if_pos fits, if_pos fits, getString_line works.disable.2 _ typed, works.enable.2, if_pos fits,
        List.take_of_length_le small]
      exact ⟨rest, rfl, fun _ => rfl⟩
    · rw [if_neg fits, if_neg fits, getString_line works.disable.2 _ (typed.drop 64), works.enable.2]
      exact ⟨_, rfl, fun other => absurd other fits⟩
  obtain ⟨left, second, whole⟩ := second
  refine ⟨left, ?_, whole⟩
  unfold readPassphraseSalt
  rw [if_neg (by simp [works.malloc]), first]
  dsimp only
  rw [if_neg fun failed => failed works.enable.1, if_neg some_, second]
  dsimp only
  rw [if_neg fun failed => failed rfl, works.enable.1]
  by_cases same : P.take 63 = secondText P
  · rw [if_neg fun differ => differ same, if_pos same]
  · rw [if_pos same, if_neg same]

theorem getPassphrase_line (typed : Typed P) (nonempty : P ≠ []) (rest : List UInt8) :
    (P.length ≤ maxPassphraseBytes → getPassphrase true (P ++ 10 :: rest) = (some P, rest)) ∧
      (maxPassphraseBytes < P.length → (getPassphrase true (P ++ 10 :: rest)).1 = none) := by
  unfold getPassphrase
  rw [if_neg (by simp)]
  constructor
  · intro fits
    have noNul : 0 ∉ P ++ [10] := by simp [typed.noNul]
    rw [fgets_line typed.noNewline (by omega)]
    dsimp only
    rw [cString_of_notMem noNul, cutLast_append, if_neg (not_lt.mpr fits)]
  · intro long
    have size : (P.take (maxPassphraseBytes + 1)).length = maxPassphraseBytes + 1 :=
      List.length_take_of_le long
    have noNul : 0 ∉ P.take (maxPassphraseBytes + 1) := fun among => typed.noNul (List.mem_of_mem_take among)
    have noNewline : 10 ∉ P.take (maxPassphraseBytes + 1) :=
      fun among => typed.noNewline (List.mem_of_mem_take among)
    rw [fgets_full typed.noNewline (by omega) nonempty, show maxPassphraseBytes + 2 - 1 =
      maxPassphraseBytes + 1 from rfl]
    dsimp only
    rw [cString_of_notMem noNul, cutLast_of_notMem noNewline, size,
      if_pos (Nat.lt_succ_self _)]

/-- **When the prompts agree.**  A passphrase is taken by both prompts as it is typed, or refused by both,
exactly when it has at most 63 characters, or more than 64 of which the first 63 are not the 63 (or fewer)
that follow the sixty-fourth. -/
theorem promptsAgree_iff (typed : Typed P) (nonempty : P ≠ []) :
    PromptsAgree P ↔ P.length ≤ 63 ∨ 65 ≤ P.length ∧ P.take 63 ≠ (P.drop 64).take 63 := by
  have sixtyFour : maxPassphraseBytes = 64 := rfl
  constructor
  · intro agree
    rcases lt_trichotomy P.length 64 with short | full | long
    · exact .inl (Nat.le_of_lt_succ short)
    · -- the confirmation meets nothing but the newline
      obtain ⟨left, prompted, -⟩ := readPassphraseSalt_lines promptsSucceed_succeed typed nonempty [] []
      have taken := (agree.accepted full.le _ promptsSucceed_succeed [] []).1
      have text := congrArg Prompted.text (Option.some.inj (prompted.symm.trans taken))
      have size : (P.take 63).length = P.length := congrArg List.length text
      rw [List.length_take_of_le (by omega)] at size
      omega
    · refine .inr ⟨long, fun same => ?_⟩
      obtain ⟨left, prompted, -⟩ := readPassphraseSalt_lines promptsSucceed_succeed typed nonempty [] []
      have refused := (agree.refused long _ promptsSucceed_succeed [] []).1 _ prompted
      have second : secondText P = (P.drop 64).take 63 := if_neg (by omega)
      exact refused (if_pos (second ▸ same))
  · intro lengths
    refine ⟨fun fits calls works pass rest => ⟨?_, (getPassphrase_line typed nonempty rest).1 fits⟩,
      fun long calls works pass rest => ⟨fun r isResult => ?_, (getPassphrase_line typed nonempty rest).2 long⟩⟩
    · have short : P.length ≤ 63 := by omega
      obtain ⟨left, prompted, whole⟩ := readPassphraseSalt_lines works typed nonempty pass rest
      have second : secondText P = P := if_pos (by omega)
      rw [prompted, whole (by omega), second, List.take_of_length_le short, if_pos rfl]
    · have differ : P.take 63 ≠ (P.drop 64).take 63 := by
        rcases lengths with short | ⟨-, differ⟩
        · omega
        · exact differ
      obtain ⟨left, prompted, -⟩ := readPassphraseSalt_lines works typed nonempty pass rest
      have second : secondText P = (P.drop 64).take 63 := if_neg (by omega)
      rw [second, if_neg differ] at prompted
      obtain rfl := Option.some.inj (isResult.symm.trans prompted)
      exact (by decide : -einval ≠ 0)

/-- A short passphrase is the same for all tools. -/
theorem promptsAgree_short : PromptsAgree "secret" :=
  (promptsAgree_iff (P := "secret") ⟨by decide, by decide, by decide⟩ (by decide)).mpr (.inl (by decide))

/-- A passphrase of 64 characters is refused by the manager. -/
theorem promptsAgree_fails : ¬ PromptsAgree (List.replicate 64 97) := by
  intro agree
  have taken := (agree.accepted (by decide) promptsSucceed promptsSucceed_succeed [] []).1
  exact absurd taken (by decide)

end Ecryptfs
