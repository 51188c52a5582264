import Mathlib.Data.List.TakeWhile
import Ecryptfs.Private.Counter

/-!
# The signatures in the mount options

`mount.ecryptfs_private` runs with the privileges of root and passes on what a file of the user says:
the signatures of the two keys, one on each line.  `fetch_sig` reads each line into a small buffer,
checks it there, cuts it at the first white space, and looks the key up in the keyring of the user.

What comes out is nothing but hexadecimal digits.  An empty text passes the checks of the text as well;
that it is no signature is left to the keyring, which has no key without a description
(`privateMountCall_options`).
-/

namespace Ecryptfs

def keyBytes : ℕ := 16
def keyCipher : CStr := "aes"

/-- `isxdigit` in the C locale. -/
def isXDigit (c : UInt8) : Bool := (48 ≤ c && c ≤ 57) || (65 ≤ c && c ≤ 70) || (97 ≤ c && c ≤ 102)

/-- What the calls of `fetch_sig` come to: the two `asprintf` and `malloc`, the content of the file if it
can be opened, for each line its `malloc`, whether it can be read, and the search of the keyring. -/
structure SigCalls where
  filename : Bool
  file : Option (List UInt8)
  pointers : Bool
  buffer : ℕ → Bool
  readable : ℕ → Bool
  search : ℕ → CStr → Bool

/-- The loop over the characters of the buffer, from number `j` on; the length is taken anew each time. -/
def validateSig (buf : List UInt8) (j : ℕ) : Option (List UInt8) :=
  if _inside : j < (cString buf).length then
    let c := buf.getD j 0
    if isXDigit c = false ∧ isSpace c = false then none
    else if isSpace c then validateSig (buf.set j 0) (j + 1)
    else validateSig buf (j + 1)
  else some buf
termination_by buf.length - j
decreasing_by
  all_goals have fits : (cString buf).length ≤ buf.length := (cString_begins buf).length_le
  · rw [List.length_set]
    omega
  · omega

/-- How the body of the loop over the two lines ends: by leaving `fetch_sig` with an error, with nothing
left to read, or with a signature and the rest of the file. -/
inductive SigLine where
  | error
  | missing
  | signature (sig : CStr) (rest : List UInt8)

/-- The body of the loop over the two lines, for line `i`. -/
def fetchLine (calls : SigCalls) (i : ℕ) (rest : List UInt8) : SigLine :=
  if calls.buffer i = false then .error
  else
    match if calls.readable i then fgets (keyBytes + 2) rest else none with
    | none => .missing
    | some (stored, rest) =>
      match validateSig (stored ++ List.replicate (keyBytes + 2 - stored.length) 0) 0 with
      | none => .error
      | some buf =>
        let sig := cString buf
        if 0 < sig.length ∧ sig.length ≠ keyBytes then .error
        else if calls.search i sig = false then .error
        else .signature sig rest

/-- `fetch_sig`: the signature of the key for the contents, and the one of the key for the names if there
is a second line. -/
def fetchSig (calls : SigCalls) : Option (CStr × Option CStr) :=
  if calls.filename = false then none
  else
    match calls.file with
    | none => none
    | some content =>
      if calls.pointers = false then none
      else
        match fetchLine calls 0 content with
        | .error => none
        | .missing => none
        | .signature fekek rest =>
          match fetchLine calls 1 rest with
          | .error => none
          | .missing => some (fekek, none)
          | .signature fnek _ => some (fekek, some fnek)

/-- The text of the mount options, with the signatures that are not null. -/
def mountOptionText (fekek fnek : Option CStr) : CStr :=
  "ecryptfs_check_dev_ruid,ecryptfs_cipher=" ++ keyCipher ++ ",ecryptfs_key_bytes=" ++
    decimalText keyBytes ++ ",ecryptfs_unlink_sigs" ++
    (if fekek.isSome then lit ",ecryptfs_sig=" else lit "") ++ fekek.getD "" ++
    (if fnek.isSome then lit ",ecryptfs_fnek_sig=" else lit "") ++ fnek.getD ""

/-- The system as a run of the program finds it that fetches the signatures. -/
def PrivateSystem.fetching (sys : PrivateSystem) (calls : SigCalls) : PrivateSystem :=
  { sys with fetchSig := (Ecryptfs.fetchSig calls).isSome }

/-- The options that a run in mounting mode passes to `mount`, if it gets there. -/
def privateMountCall (sys : PrivateSystem) (calls : SigCalls) (argv0 : CStr) (args : List CStr) : Option CStr :=
  if !passesChecks (sys.fetching calls) argv0 args then none
  else if !isMounting argv0 then none
  else if sys.isMounted then none
  else if !sys.setreuid then none
  else if !sys.setregid then none
  else
    let sigs := fetchSig calls
    some (mountOptionText (sigs.map Prod.fst) (sigs.bind Prod.snd))

/-! ## The texts of the buffers -/

/-- A zero in a text cuts it there. -/
theorem cString_set {buf : List UInt8} {j : ℕ} (inside : j < (cString buf).length) :
    cString (buf.set j 0) = (cString buf).take j := by
  induction buf generalizing j with
  | nil => exact absurd inside (Nat.not_lt_zero _)
  | cons b buf ih =>
    by_cases isEnd : b = 0
    · subst isEnd
      exact absurd inside (Nat.not_lt_zero _)
    · have keep : (b != 0) = true := bne_iff_ne.mpr isEnd
      have first : cString (b :: buf) = b :: cString buf := List.takeWhile_cons_of_pos keep
      rw [first] at inside ⊢
      cases j with
      | zero => rfl
      | succ j =>
        have inside : j < (cString buf).length := Nat.lt_of_succ_lt_succ inside
        rw [List.set_cons_succ, List.take_succ_cons, ← ih inside]
        exact List.takeWhile_cons_of_pos keep

theorem getD_cString {buf : List UInt8} {j : ℕ} (inside : j < (cString buf).length) :
    buf.getD j 0 = (cString buf)[j] := by
  have isPrefix : cString buf <+: buf := cString_begins buf
  have small : j < buf.length := lt_of_lt_of_le inside isPrefix.length_le
  rw [isPrefix.getElem inside, List.getD_eq_getElem?_getD, List.getElem?_eq_getElem small, Option.getD_some]

/-- A text whose first characters satisfy a predicate, up to one that does not. -/
theorem takeWhile_eq_take {p : UInt8 → Bool} {t : CStr} {j : ℕ} (inside : j < t.length)
    (front : ∀ c ∈ t.take j, p c = true) (stops : p t[j] = false) : t.takeWhile p = t.take j := by
  have split : t = t.take j ++ t[j] :: t.drop (j + 1) := by
    rw [List.getElem_cons_drop, List.take_append_drop]
  conv_lhs => rw [split]
  rw [List.takeWhile_append_of_pos front, List.takeWhile_cons_of_neg (by simp [stops]), List.append_nil]

/-- No white space is a hexadecimal digit. -/
theorem isXDigit_of_isSpace {c : UInt8} (space : isSpace c = true) : isXDigit c = false := by
  simp only [isSpace, isXDigit, Bool.or_eq_true, Bool.and_eq_true, decide_eq_true_eq, Bool.or_eq_false_iff,
    Bool.and_eq_false_iff, decide_eq_false_iff_not, UInt8.le_iff_toNat_le, ← UInt8.toNat_inj,
    UInt8.reduceToNat] at *
  omega

/-- A text that passes the check is cut behind its hexadecimal digits. -/
theorem cString_validateSig {buf buf' : List UInt8} {j : ℕ} (valid : validateSig buf j = some buf')
    (front : ∀ c ∈ (cString buf).take j, isXDigit c = true) :
    cString buf' = (cString buf).takeWhile isXDigit := by
  fun_induction validateSig buf j with
  | case1 buf j inside c wrong => cases valid
  | case2 buf j inside c wrong isCut ih =>
    -- the next length is the index of the character that has been cut off
    have isEnd : ¬ j + 1 < (cString (buf.set j 0)).length := by
      rw [cString_set inside, List.length_take]
      omega
    rw [validateSig, dif_neg isEnd] at valid
    have isHere : (cString buf)[j] = c := (getD_cString inside).symm
    have stops : isXDigit (cString buf)[j] = false := isHere.symm ▸ isXDigit_of_isSpace isCut
    rw [← Option.some.inj valid, cString_set inside, takeWhile_eq_take inside front stops]
  | case3 buf j inside c wrong notCut ih =>
    refine ih valid ?_
    have isHere : (cString buf)[j] = c := (getD_cString inside).symm
    have digit : isXDigit c = true := by
      by_contra notDigit
      exact wrong ⟨Bool.eq_false_iff.mpr notDigit, Bool.eq_false_iff.mpr notCut⟩
    rw [List.take_succ_eq_append_getElem inside, List.forall_mem_append]
    exact ⟨front, by simpa [isHere] using digit⟩
  | case4 buf j isEnd =>
    rw [← Option.some.inj valid]
    rw [List.take_of_length_le (not_lt.mp isEnd)] at front
    exact (List.takeWhile_eq_self_iff.mpr front).symm

/-! ## What is fetched -/

/-- A signature: sixteen hexadecimal digits. -/
structure IsHexSignature (s : CStr) : Prop where
  length : s.length = 16
  digits : ∀ c ∈ s, isXDigit c = true

/-- What the loop over the lines takes over is a signature. -/
theorem fetchLine_signature {calls : SigCalls} {i : ℕ} {file sig rest : List UInt8}
    (nonempty : calls.search i [] = false) (fetched : fetchLine calls i file = .signature sig rest) :
    IsHexSignature sig := by
  unfold fetchLine at fetched
  by_cases noBuffer : calls.buffer i = false
  · rw [if_pos noBuffer] at fetched
    cases fetched
  rw [if_neg noBuffer] at fetched
  rcases read : (if calls.readable i then fgets (keyBytes + 2) file else none) with _ | ⟨stored, left⟩
  · rw [read] at fetched
    cases fetched
  rw [read] at fetched
  dsimp only at fetched
  rcases valid : validateSig (stored ++ List.replicate (keyBytes + 2 - stored.length) 0) 0 with _ | buf
  · rw [valid] at fetched
    cases fetched
  rw [valid] at fetched
  dsimp only at fetched
  split_ifs at fetched with wrong absent
  obtain ⟨rfl, rfl⟩ := SigLine.signature.inj fetched
  have digits := cString_validateSig valid (by simp)
  refine ⟨?_, ?_⟩
  · by_contra other
    have isEmpty : cString buf = [] := by
      rw [← List.length_eq_zero_iff]
      by_contra long
      exact wrong ⟨Nat.pos_of_ne_zero long, other⟩
    rw [isEmpty] at absent
    exact absent nonempty
  · rw [digits]
    exact fun c among => List.mem_takeWhile_imp among

/-- Hexadecimal digits up to the zero behind them. -/
theorem cString_digits {sig : CStr} (digits : ∀ c ∈ sig, isXDigit c = true) (rest : List UInt8) :
    cString (sig ++ rest) = sig ++ cString rest := by
  refine List.takeWhile_append_of_pos fun c among => bne_iff_ne.mpr ?_
  rintro rfl
  exact absurd (digits 0 among) (by decide)

/-- The check cuts the newline off behind hexadecimal digits. -/
theorem validateSig_line {sig : CStr} (digits : ∀ c ∈ sig, isXDigit c = true) (zeros : List UInt8) {j : ℕ}
    (inside : j ≤ sig.length) :
    validateSig (sig ++ 10 :: 0 :: zeros) j = some (sig ++ 0 :: 0 :: zeros) := by
  have text : cString (sig ++ 10 :: 0 :: zeros) = sig ++ [10] := cString_digits digits _
  have cut : cString (sig ++ 0 :: 0 :: zeros) = sig :=
    (cString_digits digits _).trans (List.append_nil sig)
  induction left : sig.length - j generalizing j with
  | zero =>
    obtain rfl : j = sig.length := by omega
    have isNewline : (sig ++ 10 :: 0 :: zeros).getD sig.length 0 = 10 := by
      simp
    have isCut : (sig ++ 10 :: 0 :: zeros).set sig.length 0 = sig ++ 0 :: 0 :: zeros := by
      simp
    rw [validateSig, dif_pos (by simp [text])]
    dsimp only
    rw [isNewline, if_neg (by decide), if_pos (by decide), isCut, validateSig, dif_neg (by simp [cut])]
  | succ n ih =>
    have small : j < sig.length := by omega
    have isDigit : isXDigit ((sig ++ 10 :: 0 :: zeros).getD j 0) = true := by
      rw [List.getD_eq_getElem?_getD, List.getElem?_append_left small, List.getElem?_eq_getElem small]
      exact digits _ (List.getElem_mem small)
    rw [validateSig, dif_pos (by rw [text, List.length_append]; omega)]
    dsimp only
    rw [if_neg fun both => Bool.false_ne_true (both.1.symm.trans isDigit), if_neg ?_]
    · exact ih (by omega) (by omega)
    · exact fun isSpace => Bool.false_ne_true ((isXDigit_of_isSpace isSpace).symm.trans isDigit)

/-- A line with a signature whose key is in the keyring is taken over. -/
theorem fetchLine_complete {calls : SigCalls} {i : ℕ} {sig : CStr} (isSignature : IsHexSignature sig)
    (rest : List UInt8) (buffer : calls.buffer i = true) (readable : calls.readable i = true)
    (found : calls.search i sig = true) : fetchLine calls i (sig ++ 10 :: rest) = .signature sig rest := by
  have length : sig.length = 16 := isSignature.length
  have noNewline : 10 ∉ sig := fun among => absurd (isSignature.digits 10 among) (by decide)
  have read : fgets (keyBytes + 2) (sig ++ 10 :: rest) = some (sig ++ [10], rest) :=
    fgets_line noNewline (by simp [length, keyBytes]) rest
  have cut : cString (sig ++ [0, 0]) = sig :=
    (cString_digits isSignature.digits _).trans (List.append_nil sig)
  have valid : validateSig (sig ++ [10] ++ List.replicate (keyBytes + 2 - (sig ++ [10]).length) 0) 0 =
      some (sig ++ [0, 0]) := by
    have room : keyBytes + 2 - (sig ++ [10]).length = 1 := by
      rw [List.length_append, length]
      rfl
    rw [room, List.append_assoc]
    exact validateSig_line isSignature.digits [] (Nat.zero_le _)
  unfold fetchLine
  rw [if_neg (by simp [buffer]), if_pos readable, read]
  dsimp only
  rw [valid]
  dsimp only
  rw [cut, if_neg (by simp [length, keyBytes]), if_neg (by simp [found])]

/-- A file with a signature on its only line. -/
theorem fetchSig_single {calls : SigCalls} {content rest : List UInt8} {fekek : CStr}
    (named : calls.filename = true) (opened : calls.file = some content) (allocated : calls.pointers = true)
    (first : fetchLine calls 0 content = .signature fekek rest) (second : fetchLine calls 1 rest = .missing) :
    fetchSig calls = some (fekek, none) := by
  unfold fetchSig
  rw [if_neg (by simp [named]), opened]
  dsimp only
  rw [if_neg (by simp [allocated]), first]
  dsimp only
  rw [second]

/-- What `fetch_sig` comes back with are signatures. -/
theorem fetchSig_signatures {calls : SigCalls} {fekek : CStr} {fnek : Option CStr}
    (nonempty : ∀ i, calls.search i [] = false) (fetched : fetchSig calls = some (fekek, fnek)) :
    IsHexSignature fekek ∧ ∀ sig, fnek = some sig → IsHexSignature sig := by
  unfold fetchSig at fetched
  by_cases noName : calls.filename = false
  · rw [if_pos noName] at fetched
    cases fetched
  rw [if_neg noName] at fetched
  rcases opened : calls.file with _ | content
  · rw [opened] at fetched
    cases fetched
  rw [opened] at fetched
  dsimp only at fetched
  by_cases noPointers : calls.pointers = false
  · rw [if_pos noPointers] at fetched
    cases fetched
  rw [if_neg noPointers] at fetched
  rcases first : fetchLine calls 0 content with _ | _ | ⟨sig, rest⟩
  · rw [first] at fetched
    cases fetched
  · rw [first] at fetched
    cases fetched
  rw [first] at fetched
  dsimp only at fetched
  rcases second : fetchLine calls 1 rest with _ | _ | ⟨sig', rest'⟩
  · rw [second] at fetched
    cases fetched
  · rw [second] at fetched
    obtain ⟨rfl, rfl⟩ := Prod.mk.inj (Option.some.inj fetched)
    exact ⟨fetchLine_signature (nonempty 0) first, by simp⟩
  · rw [second] at fetched
    obtain ⟨rfl, rfl⟩ := Prod.mk.inj (Option.some.inj fetched)
    refine ⟨fetchLine_signature (nonempty 0) first, fun sig same => ?_⟩
    obtain rfl := Option.some.inj same
    exact fetchLine_signature (nonempty 1) second

/-- The options without signatures. -/
def fixedOptions : CStr :=
  "ecryptfs_check_dev_ruid,ecryptfs_cipher=aes,ecryptfs_key_bytes=16,ecryptfs_unlink_sigs"

theorem mountOptionText_some (fekek : CStr) (fnek : Option CStr) : mountOptionText (some fekek) fnek =
    fixedOptions ++ ",ecryptfs_sig=" ++ fekek ++
      (if fnek.isSome then lit ",ecryptfs_fnek_sig=" else lit "") ++ fnek.getD "" := by
  have fixed : lit "ecryptfs_check_dev_ruid,ecryptfs_cipher=" ++ keyCipher ++ lit ",ecryptfs_key_bytes=" ++
      decimalText keyBytes ++ lit ",ecryptfs_unlink_sigs" = fixedOptions := by decide
  unfold mountOptionText
  rw [fixed]
  rfl

/-- **The mount options.**  Whatever the file of the user holds, the options that a run in mounting mode
passes to `mount` are the fixed ones and one or two signatures. -/
theorem privateMountCall_options {sys : PrivateSystem} {calls : SigCalls} {argv0 : CStr} {args : List CStr}
    {opt : CStr} (nonempty : ∀ i, calls.search i [] = false)
    (reached : privateMountCall sys calls argv0 args = some opt) :
    ∃ H1, IsHexSignature H1 ∧
      (opt = fixedOptions ++ ",ecryptfs_sig=" ++ H1 ∨
        ∃ H2, IsHexSignature H2 ∧
          opt = fixedOptions ++ ",ecryptfs_sig=" ++ H1 ++ ",ecryptfs_fnek_sig=" ++ H2) := by
  unfold privateMountCall at reached
  split_ifs at reached with stopped umounting
  obtain rfl := Option.some.inj reached
  -- a run in mounting mode that passes its checks has fetched signatures
  have passed : passesChecks (sys.fetching calls) argv0 args = true := by simpa using stopped
  have mounting : isMounting argv0 = true := by simpa using umounting
  have fetched : (fetchSig calls).isSome = true := by
    simp only [passesChecks, Bool.and_eq_true, mounting, Bool.not_true, Bool.or_false] at passed
    exact passed.1.1.2
  obtain ⟨⟨H1, fnek⟩, fetched⟩ := Option.isSome_iff_exists.mp fetched
  obtain ⟨isSignature, isSignature'⟩ := fetchSig_signatures nonempty fetched
  refine ⟨H1, isSignature, ?_⟩
  rw [fetched]
  show mountOptionText (some H1) fnek = _ ∨ ∃ H2, _ ∧ mountOptionText (some H1) fnek = _
  rw [mountOptionText_some]
  rcases fnek with _ | H2
  · have nothing : lit "" = [] := rfl
    left
    simp only [Option.isSome_none, Bool.false_eq_true, if_false, Option.getD_none, nothing, List.append_nil]
  · exact .inr ⟨H2, isSignature' H2 rfl, rfl⟩

/-- A file with one signature, the key of which is in the keyring. -/
def oneSignature : SigCalls where
  filename := true
  file := some "0123456789abcdef\n"
  pointers := true
  buffer _ := true
  readable _ := true
  search _ sig := sig == "0123456789abcdef"

theorem privateMountCall_options_oneSignature :
    ∃ H1, IsHexSignature H1 ∧
      (fixedOptions ++ ",ecryptfs_sig=0123456789abcdef" = fixedOptions ++ ",ecryptfs_sig=" ++ H1 ∨
        ∃ H2, IsHexSignature H2 ∧ fixedOptions ++ ",ecryptfs_sig=0123456789abcdef" =
          fixedOptions ++ ",ecryptfs_sig=" ++ H1 ++ ",ecryptfs_fnek_sig=" ++ H2) := by
  have reached : privateMountCall {} oneSignature "mount.ecryptfs_private" [] =
      some (fixedOptions ++ ",ecryptfs_sig=0123456789abcdef") := by
    have first : fetchLine oneSignature 0 "0123456789abcdef\n" = .signature "0123456789abcdef" [] :=
      fetchLine_complete (show IsHexSignature "0123456789abcdef" from ⟨rfl, List.all_eq_true.mp rfl⟩) []
        rfl rfl rfl
    have fetched : fetchSig oneSignature = some ((lit "0123456789abcdef"), none) :=
      fetchSig_single rfl rfl rfl first rfl
    have passes : passesChecks (PrivateSystem.fetching {} oneSignature) "mount.ecryptfs_private" [] = true := by
      unfold PrivateSystem.fetching
      rw [fetched]
      decide
    unfold privateMountCall
    rw [passes, fetched]
    decide
  exact privateMountCall_options (fun _ => rfl) reached

end Ecryptfs
