import Ecryptfs.Options.Reading
import Ecryptfs.Passphrase.Prompts

/-!
# Strings of any length from the standard input

`get_string_stdin` reads a line into a buffer that doubles when it is full.  The end of the input is
stored as a newline, and the terminator replaces what was stored last.  The length of the buffer is an
`int`, which cannot be doubled at 2^30 (`storesLine_iff`).
-/

namespace Ecryptfs

def defaultStringLength : ℕ := 16

/-- Why the loop stops before the end of the line: a fault, or there is no memory. -/
inductive StringStop where
  | fault (f : Fault)
  | nomem (val : List UInt8) (rest : List UInt8)

/-- The block at `*val`, and the length that is kept for it. -/
structure StringBuffer where
  val : List UInt8
  length : ℕ

section

variable (heap : Heap) (allocates : ℕ → Bool)

/-- The block of twice the length that takes the place of a full one. -/
def StringBuffer.doubled (b : StringBuffer) : StringBuffer where
  val := b.val.take b.length ++ (heap.malloc (b.length * 2)).drop b.length
  length := b.length * 2

/-- The beginning of a turn, where a full buffer is doubled; `rest` is what is left of the input. -/
def makeRoom (b : StringBuffer) (count : ℕ) (rest : List UInt8) : Except StringStop StringBuffer :=
  if count = b.length then
    if 2 ^ 31 ≤ b.length * 2 then .error (.fault .overflow)
    else if allocates (b.length * 2) then
      -- `memcpy` and `memset` go over the length that is kept
      if b.val.length < b.length then .error (.fault .outside) else .ok (b.doubled heap)
    else .error (.nomem b.val rest)
  else .ok b

/-- A turn of the loop, which stores a character. -/
def storeNext (b : StringBuffer) (count : ℕ) (c : UInt8) (rest : List UInt8) :
    Except StringStop StringBuffer := do
  let b ← makeRoom heap allocates b count rest
  match storeChar b.val count c with
  | .ok val => .ok { b with val }
  | .error f => .error (.fault f)

/-- What the loop leaves. -/
structure StringChars where
  val : List UInt8
  count : ℕ
  eof : Bool
  rest : List UInt8

/-- The loop of `get_string_stdin`, with `count` characters in the buffer. -/
def stringLoop (b : StringBuffer) (count : ℕ) : List UInt8 → Except StringStop StringChars
  | [] => do
    let b ← storeNext heap allocates b count 10 []
    .ok { val := b.val, count := count + 1, eof := true, rest := [] }
  | c :: stdin => do
    let b ← storeNext heap allocates b count (mygetchar c) (c :: stdin)
    if mygetchar c ≠ 10 then stringLoop b (count + 1) stdin
    else .ok { val := b.val, count := count + 1, eof := false, rest := stdin }

/-- The code of `get_string_stdin`, the block at `*val` (`none` for a null pointer), and what is left of
the input. -/
structure StringRead where
  rc : ℤ
  val : Option (List UInt8)
  rest : List UInt8

/-- The end of `get_string_stdin`, behind the loop. -/
def finishString (calls : EchoCalls) (echo : Bool) :
    Except StringStop StringChars → Except Fault StringRead
  | .error (.fault f) => .error f
  | .error (.nomem val rest) => .ok { rc := -enomem, val := some val, rest }
  | .ok read => do
    let val ← storeChar read.val (read.count - 1) 0
    if read.count = 1 ∧ read.eof = true then .ok { rc := -eio, val := none, rest := read.rest }
    else .ok { rc := if echo then 0 else calls.enable, val := some val, rest := read.rest }

/-- `get_string_stdin`, with `old` at `*val`. -/
def getStringStdin (calls : EchoCalls) (echo : Bool) (old : Option (List UInt8))
    (stdin : List UInt8) : Except Fault StringRead :=
  if allocates defaultStringLength = false then .ok { rc := -enomem, val := old, rest := stdin }
  else do
    let temp ← storeChar (heap.malloc defaultStringLength) 0 0
    if echo = false ∧ calls.disable ≠ 0 then
      .ok { rc := calls.disable, val := some temp, rest := stdin }
    else
      finishString calls echo
        (stringLoop heap allocates { val := temp, length := defaultStringLength } 0 stdin)

end

/-- The characters in front of the first newline or carriage return, or the end of the input. -/
def firstLine (stdin : List UInt8) : List UInt8 := stdin.takeWhile fun c => c != 10 && c != 13

/-- With echo and memory, the first line is stored with a terminator, nothing behind the end of the line
is read, and there is an error with a null pointer if and only if there is no input. -/
def StoresLine (stdin : List UInt8) : Prop :=
  ∀ (heap : Heap) (calls : EchoCalls) (old : Option (List UInt8)),
    ∃ r, getStringStdin heap (fun _ => true) calls true old stdin = .ok r ∧
      (r.rc = -eio ∧ r.val = none ↔ stdin = []) ∧
      (stdin ≠ [] → r.rc = 0 ∧ ∃ beyond, r.val = some (firstLine stdin ++ 0 :: beyond)) ∧
      r.rest = stdin.drop ((firstLine stdin).length + 1)

/-! ## The buffer -/

/-- A buffer with some characters, of a length that has been doubled from 16. -/
structure StringBuffer.Holds (b : StringBuffer) (chars : List UInt8) : Prop where
  length : b.val.length = b.length
  begins : chars <+: b.val
  power : ∃ k ≤ 26, b.length = 2 ^ (k + 4)

variable {heap : Heap} {allocates : ℕ → Bool} {b : StringBuffer} {chars : List UInt8}

/-- What a full buffer can be doubled to. -/
theorem StringBuffer.Holds.double (holds : b.Holds chars) (small : b.length * 2 < 2 ^ 31) :
    (b.doubled heap).Holds chars := by
  obtain ⟨k, -, size⟩ := holds.power
  have length : (b.doubled heap).val.length = b.length * 2 := by
    rw [doubled, List.length_append, List.length_take, List.length_drop, Heap.malloc,
      Memory.length_slice, holds.length]
    omega
  refine ⟨length, ?_, k + 1, ?_, ?_⟩
  · rw [doubled, ← holds.length, List.take_length]
    exact holds.begins.trans (List.prefix_append _ _)
  · rw [size, ← pow_succ] at small
    have := (Nat.pow_lt_pow_iff_right (by norm_num)).mp small
    omega
  · rw [doubled, size, ← pow_succ, Nat.add_right_comm]

/-- At the beginning of a turn room is made for a character, or the buffer cannot be doubled. -/
theorem makeRoom_spec (holds : b.Holds chars) (rest : List UInt8) :
    (∃ b', makeRoom heap allocates b chars.length rest = .ok b' ∧ b'.Holds chars ∧
      chars.length < b'.length) ∨
    (makeRoom heap allocates b chars.length rest = .error (.fault .overflow) ∧
      2 ^ 30 ≤ chars.length) ∨
    (∃ size, allocates size = false) ∧
      makeRoom heap allocates b chars.length rest = .error (.nomem b.val rest) := by
  have fits : chars.length ≤ b.length := holds.length ▸ holds.begins.length_le
  unfold makeRoom
  split_ifs with full large allocated short
  · exact .inr (.inl ⟨rfl, by omega⟩)
  · rw [holds.length] at short
    exact absurd short (lt_irrefl _)
  · refine .inl ⟨_, rfl, holds.double (not_le.mp large), ?_⟩
    obtain ⟨k, -, size⟩ := holds.power
    have positive : 0 < b.length := size ▸ Nat.two_pow_pos _
    show chars.length < b.length * 2
    omega
  · exact .inr (.inr ⟨⟨_, Bool.not_eq_true _ ▸ allocated⟩, rfl⟩)
  · exact .inl ⟨b, rfl, holds, by omega⟩

/-- A turn stores its character, or the buffer cannot be doubled. -/
theorem storeNext_spec (holds : b.Holds chars) (c : UInt8) (rest : List UInt8) :
    (∃ b', storeNext heap allocates b chars.length c rest = .ok b' ∧ b'.Holds (chars ++ [c]) ∧
      chars.length < 2 ^ 30) ∨
    (storeNext heap allocates b chars.length c rest = .error (.fault .overflow) ∧
      2 ^ 30 ≤ chars.length) ∨
    (∃ size, allocates size = false) ∧
      storeNext heap allocates b chars.length c rest = .error (.nomem b.val rest) := by
  unfold storeNext
  rcases @makeRoom_spec heap allocates b chars holds rest with
    ⟨b', room, holds', less⟩ | ⟨overflow, large⟩ | ⟨failed, nomem⟩
  · left
    have inside : chars.length < b'.val.length := holds'.length.symm ▸ less
    obtain ⟨k, le, size⟩ := holds'.power
    refine ⟨{ b' with val := b'.val.set chars.length c }, ?_, ⟨?_, ?_, k, le, size⟩, ?_⟩
    · simp only [room, bind, Except.bind, storeChar, if_pos inside]
    · exact List.length_set.trans holds'.length
    · obtain ⟨behind, whole⟩ := holds'.begins
      cases behind with
      | nil =>
        rw [← whole, List.append_nil] at inside
        exact absurd inside (lt_irrefl _)
      | cons d behind =>
        refine ⟨behind, ?_⟩
        rw [← whole, List.set_append_right _ _ (le_refl _), Nat.sub_self, List.set_cons_zero,
          List.append_assoc, List.singleton_append]
    · have := Nat.pow_le_pow_right (show 0 < 2 by norm_num) (show k + 4 ≤ 30 by omega)
      omega
  · exact .inr (.inl ⟨by rw [overflow]; rfl, large⟩)
  · exact .inr (.inr ⟨failed, by rw [nomem]; rfl⟩)

/-! ## The loop -/

/-- How the loop ends when it is started with some characters in the buffer. -/
def LoopEnds (allocates : ℕ → Bool) (chars stdin : List UInt8) : Except StringStop StringChars → Prop
  | .ok read => chars ++ firstLine stdin ++ [10] <+: read.val ∧
      read.count = chars.length + (firstLine stdin).length + 1 ∧
      (read.eof = true ↔ firstLine stdin = stdin) ∧
      read.rest = stdin.drop ((firstLine stdin).length + 1) ∧
      chars.length + (firstLine stdin).length < 2 ^ 30
  | .error (.fault .overflow) => 2 ^ 30 ≤ chars.length + (firstLine stdin).length
  | .error (.fault .outside) => False
  | .error (.nomem _ _) => ∃ size, allocates size = false

theorem mygetchar_eq_newline {c : UInt8} : mygetchar c = 10 ↔ c = 10 ∨ c = 13 := by
  unfold mygetchar
  split_ifs with return_
  · simp [return_]
  · simp [return_]

theorem firstLine_end {c : UInt8} (ends : mygetchar c = 10) (stdin : List UInt8) :
    firstLine (c :: stdin) = [] := by
  rcases mygetchar_eq_newline.mp ends with rfl | rfl <;> rfl

theorem firstLine_cons {c : UInt8} (inside : mygetchar c ≠ 10) (stdin : List UInt8) :
    mygetchar c = c ∧ firstLine (c :: stdin) = c :: firstLine stdin := by
  obtain ⟨notNewline, notReturn⟩ := not_or.mp (mt mygetchar_eq_newline.mpr inside)
  exact ⟨if_neg notReturn, List.takeWhile_cons_of_pos (by simp [notNewline, notReturn])⟩

/-- A character in front of the rest of its line counts as one that is stored already. -/
theorem LoopEnds.cons {c : UInt8} {stdin : List UInt8} {result : Except StringStop StringChars}
    (ends : LoopEnds allocates (chars ++ [c]) stdin result)
    (line : firstLine (c :: stdin) = c :: firstLine stdin) :
    LoopEnds allocates chars (c :: stdin) result := by
  have length : (chars ++ [c]).length = chars.length + 1 := by rw [List.length_append]; rfl
  have length' : (firstLine (c :: stdin)).length = (firstLine stdin).length + 1 := by rw [line]; rfl
  rcases result with stop | read
  · rcases stop with fault | _
    · cases fault with
      | overflow =>
        have large : 2 ^ 30 ≤ (chars ++ [c]).length + (firstLine stdin).length := ends
        show 2 ^ 30 ≤ chars.length + (firstLine (c :: stdin)).length
        omega
      | outside => exact ends
    · exact ends
  · obtain ⟨begins, count, eof, rest, less⟩ := ends
    refine ⟨?_, by omega, ?_, ?_, by omega⟩
    · rw [line]
      simpa using begins
    · rw [eof, line, List.cons_inj_right]
    · rw [rest, length', List.drop_succ_cons]

/-- The loop stores the line behind the characters that are there. -/
theorem stringLoop_ends (holds : b.Holds chars) (stdin : List UInt8) :
    LoopEnds allocates chars stdin (stringLoop heap allocates b chars.length stdin) := by
  induction stdin generalizing b chars with
  | nil =>
    rw [stringLoop]
    rcases @storeNext_spec heap allocates b chars holds 10 [] with
      ⟨b', stored, holds', less⟩ | ⟨overflow, large⟩ | ⟨failed, nomem⟩
    · rw [stored]
      refine ⟨?_, rfl, by simp [firstLine], rfl, less⟩
      rw [firstLine, List.takeWhile_nil, List.append_nil]
      exact holds'.begins
    · rw [overflow]
      exact large
    · rw [nomem]
      exact failed
  | cons c stdin ih =>
    rw [stringLoop]
    rcases @storeNext_spec heap allocates b chars holds (mygetchar c) (c :: stdin) with
      ⟨b', stored, holds', less⟩ | ⟨overflow, large⟩ | ⟨failed, nomem⟩
    · rw [stored]
      by_cases ends : mygetchar c = 10
      · have line := firstLine_end ends stdin
        simp only [bind, Except.bind, ne_eq, ends, not_true_eq_false, if_false]
        rw [ends] at holds'
        refine ⟨?_, ?_, ?_, ?_, ?_⟩
        · rw [line, List.append_nil]
          exact holds'.begins
        · rw [line, List.length_nil]
        · simp [line]
        · rw [line]
          rfl
        · rw [line]
          exact less
      · obtain ⟨same, line⟩ := firstLine_cons ends stdin
        simp only [bind, Except.bind, ne_eq, ends, not_false_eq_true, if_true]
        rw [same] at holds'
        have rest := (ih holds').cons line
        rwa [List.length_append] at rest
    · rw [overflow]
      exact large.trans (Nat.le_add_right _ _)
    · rw [nomem]
      exact failed

/-! ## The string -/

/-- The first block, which holds the empty string. -/
def firstBuffer (heap : Heap) : StringBuffer where
  val := (heap.malloc defaultStringLength).set 0 0
  length := defaultStringLength

theorem firstBuffer_holds (heap : Heap) : (firstBuffer heap).Holds [] := by
  refine ⟨?_, List.nil_prefix, 0, Nat.zero_le _, rfl⟩
  rw [firstBuffer, List.length_set, Heap.malloc, Memory.length_slice]

theorem storeChar_first (heap : Heap) :
    storeChar (heap.malloc defaultStringLength) 0 0 = .ok (firstBuffer heap).val := by
  refine if_pos ?_
  rw [Heap.malloc, Memory.length_slice]
  decide

/-- The terminator takes the place of what was stored last. -/
theorem storeChar_last {line val : List UInt8} (begins : line ++ [10] <+: val) :
    ∃ beyond, storeChar val line.length 0 = .ok (line ++ 0 :: beyond) := by
  obtain ⟨beyond, rfl⟩ := begins
  have whole : line ++ [10] ++ beyond = line ++ 10 :: beyond := by
    rw [List.append_assoc, List.singleton_append]
  refine ⟨beyond, ?_⟩
  rw [whole, storeChar, if_pos, List.set_append_right _ _ (le_refl _), Nat.sub_self,
    List.set_cons_zero]
  rw [List.length_append, List.length_cons]
  omega

/-- What is made of a line that was read. -/
theorem finishString_spec {read : StringChars} {stdin : List UInt8}
    (ends : LoopEnds allocates [] stdin (.ok read)) (calls : EchoCalls) (echo : Bool) :
    ∃ r, finishString calls echo (.ok read) = .ok r ∧
      (stdin = [] → r.rc = -eio ∧ r.val = none) ∧
      (stdin ≠ [] → r.rc = (if echo then 0 else calls.enable) ∧
        ∃ beyond, r.val = some (firstLine stdin ++ 0 :: beyond)) ∧
      r.rest = stdin.drop ((firstLine stdin).length + 1) := by
  obtain ⟨begins, count, eof, rest, -⟩ := ends
  rw [List.length_nil, Nat.zero_add] at count
  obtain ⟨beyond, stored⟩ := storeChar_last begins
  have nothing : (firstLine stdin).length + 1 = 1 ∧ read.eof = true ↔ stdin = [] := by
    rw [eof, Nat.add_eq_right, List.length_eq_zero_iff]
    constructor
    · rintro ⟨line, all⟩
      rw [← all, line]
    · rintro rfl
      exact ⟨rfl, rfl⟩
  rw [List.nil_append] at stored
  rw [finishString, count, Nat.add_sub_cancel, stored]
  simp only [bind, Except.bind, nothing]
  by_cases empty : stdin = []
  · rw [if_pos empty]
    exact ⟨_, rfl, fun _ => ⟨rfl, rfl⟩, absurd empty, rest⟩
  · rw [if_neg empty]
    exact ⟨_, rfl, (absurd · empty), fun _ => ⟨rfl, beyond, rfl⟩, rest⟩

/-- With the first block, all that follows is the loop. -/
theorem getStringStdin_eq {echo : Bool} {calls : EchoCalls} (first : allocates defaultStringLength = true)
    (ready : echo = true ∨ calls.disable = 0) (old : Option (List UInt8)) (stdin : List UInt8) :
    ∃ ended, LoopEnds allocates [] stdin ended ∧
      getStringStdin heap allocates calls echo old stdin = finishString calls echo ended := by
  have ready' : ¬(echo = false ∧ calls.disable ≠ 0) := by
    rintro ⟨off, fails⟩
    exact ready.elim (by simp [off]) fails
  refine ⟨stringLoop heap allocates (firstBuffer heap) 0 stdin,
    stringLoop_ends (firstBuffer_holds heap) stdin, ?_⟩
  rw [getStringStdin, first, if_neg (by decide), storeChar_first]
  exact if_neg ready'

/-- With echo and memory, the loop comes to the end of the line, or the buffer cannot be doubled. -/
theorem getStringStdin_echo (heap : Heap) (calls : EchoCalls) (old : Option (List UInt8))
    (stdin : List UInt8) :
    ((firstLine stdin).length < 2 ^ 30 → ∃ read,
      LoopEnds (fun _ => true) [] stdin (.ok read) ∧
        getStringStdin heap (fun _ => true) calls true old stdin = finishString calls true (.ok read)) ∧
    (2 ^ 30 ≤ (firstLine stdin).length →
      getStringStdin heap (fun _ => true) calls true old stdin = .error .overflow) := by
  obtain ⟨ended, ends, same⟩ :=
    @getStringStdin_eq heap (fun _ => true) true calls rfl (.inl rfl) old stdin
  rcases ended with stop | read
  · rcases stop with fault | _
    · cases fault with
      | overflow =>
        have large : 2 ^ 30 ≤ ([] : List UInt8).length + (firstLine stdin).length := ends
        rw [List.length_nil, Nat.zero_add] at large
        exact ⟨fun short => absurd large (not_le.mpr short), fun _ => same⟩
      | outside => exact ends.elim
    · obtain ⟨_, failed⟩ := ends
      cases failed
  · have short : ([] : List UInt8).length + (firstLine stdin).length < 2 ^ 30 := ends.2.2.2.2
    rw [List.length_nil, Nat.zero_add] at short
    exact ⟨fun _ => ⟨read, ends, same⟩, fun large => absurd large (not_le.mpr short)⟩

theorem StoresLine.of_short {stdin : List UInt8} (short : (firstLine stdin).length < 2 ^ 30) :
    StoresLine stdin := by
  intro heap calls old
  obtain ⟨read, ends, same⟩ := (getStringStdin_echo heap calls old stdin).1 short
  obtain ⟨r, done, nothing, something, rest⟩ := finishString_spec ends calls true
  refine ⟨r, same.trans done, ⟨fun failed => ?_, nothing⟩, something, rest⟩
  by_contra input
  rw [(something input).1, if_pos rfl] at failed
  exact absurd failed.1 (by decide)

theorem not_storesLine {stdin : List UInt8} (long : 2 ^ 30 ≤ (firstLine stdin).length) :
    ¬ StoresLine stdin := by
  intro stores
  obtain ⟨r, done, -⟩ := stores ⟨fun _ _ => 0, fun _ _ => 0⟩ ⟨0, 0⟩ none
  rw [(getStringStdin_echo _ _ _ stdin).2 long] at done
  cases done

/-- **Strings from the standard input.**  With echo and memory, `get_string_stdin` stores the first line
and reads no further, and reports the end of the input, if and only if the line has less than 2^30
characters. -/
theorem storesLine_iff (stdin : List UInt8) :
    StoresLine stdin ↔ (firstLine stdin).length < 2 ^ 30 := by
  constructor
  · intro stores
    by_contra long
    exact not_storesLine (not_lt.mp long) stores
  · exact .of_short

/-- A line of 2^30 characters fills the largest buffer. -/
theorem huge_line_fails : ¬ StoresLine (List.replicate (2 ^ 30) 97 ++ [10]) := by
  apply not_storesLine
  have line : firstLine (List.replicate (2 ^ 30) 97 ++ [10]) = List.replicate (2 ^ 30) 97 := by
    unfold firstLine
    rw [List.takeWhile_append_of_pos]
    · exact List.append_nil _
    · intro c among
      rw [List.eq_of_mem_replicate among]
      decide
  rw [line, List.length_replicate]

end Ecryptfs
