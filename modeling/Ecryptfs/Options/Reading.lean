import Ecryptfs.Options.File
import Ecryptfs.Options.Tokens
import Ecryptfs.Lib.Memory
import Ecryptfs.Lib.Records
import Mathlib.Data.Nat.Size

/-!
# Reading the options of a file

`parse_options_file` reads a file or a pipe piece by piece into a buffer that doubles when it is full,
and parses the buffer as a C string.  It never writes the NUL that ends the string: whatever the
allocator left behind the contents of the file is parsed as well, up to the first zero byte, so that the
result depends on the file only if the first byte left there is zero (`readsFileOnly_iff`).
-/

namespace Ecryptfs

def eisdir : ℤ := 21

/-- What `fstat` says about a file: its kind, and the size of one that is no directory or pipe. -/
inductive FileKind where
  | directory
  | fifo
  | other (size : ℕ)
  deriving DecidableEq

/-- What `read` returns: some bytes, none at the end of the file, or -1 with an error number. -/
inductive ReadResult where
  | bytes (chunk : CStr)
  | failed (errno : ℤ)
  deriving DecidableEq

/-- The contents of a heap: of a new block of each size, and of what is added to a block of each size
when this is doubled. -/
structure Heap where
  fresh : ℕ → Memory.Bytes
  more : ℕ → Memory.Bytes

/-- A new block. -/
def Heap.malloc (heap : Heap) (size : ℕ) : CStr := Memory.slice (heap.fresh size) 0 size

/-- A block whose size has been doubled. -/
def Heap.realloc (heap : Heap) (data : CStr) : CStr :=
  data ++ Memory.slice (heap.more data.length) 0 data.length

/-- The loop of `parse_options_file` with the buffer and the position in it, for what the calls of
`read` return (at last the end of the file).  `allocates` tells for which sizes `realloc` succeeds. -/
def readLoop (heap : Heap) (allocates : ℕ → Bool) : List ReadResult → CStr → ℕ → Except ℤ CStr
  | [], data, _ => .ok data
  | .failed errno :: _, _, _ => .error (-errno)
  | .bytes chunk :: results, data, pos =>
    if chunk = [] then .ok data
    else
      let written := Records.overwrite 0 data pos chunk
      let next := pos + chunk.length
      if next ≥ written.length then
        if allocates (2 * written.length) then
          readLoop heap allocates results (heap.realloc written) next
        else .error (-enomem)
      else readLoop heap allocates results written next

/-- `generate_nv_list` on a buffer, or `none` if it reads beyond its end. -/
def generateNvListAt (data : CStr) : Option (ℤ × List NameValPair) :=
  if 0 ∈ data then some (generateNvListInt (data.takeWhile (· ≠ 0))) else none

/-- `parse_options_file` for a file of which `fstat` says `stat`, or fails. -/
def parseOptionsFd (heap : Heap) (allocates : ℕ → Bool) (stat : Option FileKind)
    (results : List ReadResult) : Option (ℤ × List NameValPair) :=
  match stat with
  | none => some (-1, [])
  | some .directory => some (-eisdir, [])
  | some .fifo => parse 1024
  | some (.other size) => parse size
where
  /-- From the check of the size on. -/
  parse (bufSize : ℕ) : Option (ℤ × List NameValPair) :=
    if bufSize > maxFileSize then some (-efbig, [])
    else if allocates (bufSize + 1) then
      match readLoop heap allocates results (heap.malloc (bufSize + 1)) 0 with
      | .ok data => generateNvListAt data
      | .error rc => some (rc, [])
    else some (-enomem, [])

/-! ## The buffer -/

/-- How often a buffer of `start` bytes is doubled until `length` bytes do not fill it. -/
def doublings (start length : ℕ) : ℕ := (length / start).size

/-- A buffer that has been doubled `k` times, as long as nothing is written to it. -/
def grown (heap : Heap) (start : ℕ) : ℕ → CStr
  | 0 => heap.malloc start
  | k + 1 => heap.realloc (grown heap start k)

/-- What is behind `length` bytes in the buffer that holds them. -/
def leftover (heap : Heap) (start length : ℕ) : CStr :=
  (grown heap start (doublings start length)).drop length

theorem length_grown (heap : Heap) (start k : ℕ) : (grown heap start k).length = start * 2 ^ k := by
  induction k with
  | zero => rw [grown, Heap.malloc, Memory.length_slice, pow_zero, Nat.mul_one]
  | succ k ih =>
    rw [grown, Heap.realloc, List.length_append, Memory.length_slice, ih, pow_succ, ← Nat.mul_assoc,
      Nat.mul_two]

section

variable {start : ℕ} (positive : 0 < start)

include positive

theorem lt_grown (length : ℕ) : length < start * 2 ^ doublings start length := by
  have less : length / start < 2 ^ doublings start length := Nat.lt_size_self _
  rwa [Nat.div_lt_iff_lt_mul positive, Nat.mul_comm] at less

/-- More bytes that do not fill the buffer leave it as it is. -/
theorem doublings_of_lt {length next : ℕ} (le : length ≤ next)
    (fits : next < start * 2 ^ doublings start length) :
    doublings start next = doublings start length := by
  refine le_antisymm ?_ (Nat.size_le_size (Nat.div_le_div_right le))
  refine Nat.size_le.mpr ?_
  rwa [Nat.div_lt_iff_lt_mul positive, Nat.mul_comm]

/-- Bytes that fill the buffer double it once. -/
theorem doublings_full (k : ℕ) : doublings start (start * 2 ^ k) = k + 1 := by
  rw [doublings, Nat.mul_div_cancel_left _ positive, Nat.size_pow]

end

/-- What the calls of `read` return for a buffer of `size` bytes of which `pos` are used: never
nothing, and never more than there is place for. -/
def Delivers (size pos : ℕ) : List CStr → Prop
  | [] => True
  | chunk :: chunks => chunk ≠ [] ∧ pos + chunk.length ≤ size ∧
      Delivers (if pos + chunk.length = size then 2 * size else size) (pos + chunk.length) chunks

/-- The loop with the bytes read so far: at the end the buffer holds the contents, and behind them
what it has been allocated with. -/
theorem readLoop_eq (heap : Heap) {start : ℕ} (positive : 0 < start) (chunks : List CStr)
    {done : CStr} {k : ℕ} (size : doublings start done.length = k)
    (delivers : Delivers (start * 2 ^ k) done.length chunks) :
    readLoop heap (fun _ => true) (chunks.map .bytes) (done ++ (grown heap start k).drop done.length)
      done.length = .ok (done ++ chunks.flatten ++
        leftover heap start (done ++ chunks.flatten).length) := by
  induction chunks generalizing done k with
  | nil =>
    rw [List.flatten_nil, List.append_nil, leftover, size]
    rfl
  | cons chunk chunks ih =>
    obtain ⟨some_, fits, delivers⟩ := delivers
    have room : done.length < start * 2 ^ k := by
      rw [← size]
      exact lt_grown positive _
    have length := length_grown heap start k
    have written : Records.overwrite 0 (done ++ (grown heap start k).drop done.length) done.length chunk =
        (done ++ chunk) ++ (grown heap start k).drop (done ++ chunk).length := by
      rw [Records.overwrite_eq (by rw [List.length_append]; omega), List.take_left',
        List.drop_append, List.drop_eq_nil_of_le (by omega), List.drop_drop, List.length_append,
        List.append_assoc, List.nil_append]
      · congr 4
        omega
      · rfl
    have counted : ((done ++ chunk) ++ (grown heap start k).drop (done ++ chunk).length).length =
        start * 2 ^ k := by
      rw [List.length_append, List.length_drop, length, List.length_append]
      omega
    rw [List.map_cons, readLoop, if_neg some_]
    simp only [written, counted, List.flatten_cons, ← List.append_assoc]
    rw [← List.length_append] at fits delivers ⊢
    by_cases full : (done ++ chunk).length = start * 2 ^ k
    · have behind : heap.realloc ((done ++ chunk) ++ (grown heap start k).drop (done ++ chunk).length) =
          (done ++ chunk) ++ (grown heap start (k + 1)).drop (done ++ chunk).length := by
        rw [grown, Heap.realloc, Heap.realloc, counted, length,
          List.drop_append_of_le_length (by omega), List.append_assoc]
      rw [if_pos full.ge, if_pos trivial, behind]
      refine ih ?_ ?_
      · rw [full, doublings_full positive]
      · rw [if_pos full, ← Nat.mul_assoc, Nat.mul_comm 2, Nat.mul_assoc, ← pow_succ'] at delivers
        exact delivers
    · rw [if_neg (by omega)]
      refine ih ?_ ?_
      · rw [← size] at fits full ⊢
        exact doublings_of_lt positive (by rw [List.length_append]; omega) (by omega)
      · rwa [if_neg full] at delivers

/-! ## What is parsed -/

/-- The string in a buffer that begins with a text. -/
theorem generateNvListAt_append {text rest : CStr} (noNul : 0 ∉ text) : generateNvListAt (text ++ rest) =
      if 0 ∈ rest then some (generateNvListInt (text ++ rest.takeWhile (· ≠ 0))) else none := by
  have nonzero : ∀ c ∈ text, decide (c ≠ 0) = true := by
    intro c among
    rw [decide_eq_true_eq]
    rintro rfl
    exact noNul among
  rw [generateNvListAt, List.takeWhile_append_of_pos nonzero]
  simp only [List.mem_append, noNul, false_or]

/-- What the file comes to, whatever its size was thought to be. -/
theorem parse_eq (heap : Heap) {bufSize : ℕ} (small : bufSize ≤ maxFileSize) {chunks : List CStr}
    (delivers : Delivers (bufSize + 1) 0 chunks) (noNul : 0 ∉ chunks.flatten) :
    parseOptionsFd.parse heap (fun _ => true) (chunks.map .bytes) bufSize =
      if 0 ∈ leftover heap (bufSize + 1) chunks.flatten.length then
        some (generateNvListInt (chunks.flatten ++
          (leftover heap (bufSize + 1) chunks.flatten.length).takeWhile (· ≠ 0)))
      else none := by
  have positive : 0 < bufSize + 1 := Nat.succ_pos bufSize
  have first : doublings (bufSize + 1) ([] : CStr).length = 0 := by
    rw [doublings, List.length_nil, Nat.zero_div, Nat.size_zero]
  have read := readLoop_eq heap positive chunks first (by simpa using delivers)
  rw [List.nil_append, List.nil_append, List.length_nil, List.drop_zero, grown] at read
  rw [parseOptionsFd.parse, if_neg (by omega), if_pos rfl, read]
  exact generateNvListAt_append noNul

/-- What `fstat` says about a file with the given contents, and the size that its buffer is given. -/
def Stats (contents : CStr) (kind : FileKind) (bufSize : ℕ) : Prop :=
  kind = .fifo ∧ bufSize = 1024 ∨ kind = .other contents.length ∧ bufSize = contents.length

/-- A pipe, or a file of known size, that is read piece by piece: its contents have at most 0xa000 bytes and
no zero byte. -/
structure Readable (chunks : List CStr) (kind : FileKind) (bufSize : ℕ) : Prop where
  stat : Stats chunks.flatten kind bufSize
  delivers : Delivers (bufSize + 1) 0 chunks
  noNul : 0 ∉ chunks.flatten
  bound : chunks.flatten.length ≤ maxFileSize

/-- The first byte that the allocator left behind the contents. -/
def byteBehind (heap : Heap) (chunks : List CStr) (bufSize : ℕ) : Option UInt8 :=
  (leftover heap (bufSize + 1) chunks.flatten.length).head?

section

variable {chunks : List CStr} {kind : FileKind} {bufSize : ℕ} (readable : Readable chunks kind bufSize)

include readable

theorem parseOptionsFd_eq (heap : Heap) :
    parseOptionsFd heap (fun _ => true) (some kind) (chunks.map .bytes) =
      if 0 ∈ leftover heap (bufSize + 1) chunks.flatten.length then
        some (generateNvListInt (chunks.flatten ++
          (leftover heap (bufSize + 1) chunks.flatten.length).takeWhile (· ≠ 0)))
      else none := by
  have small : bufSize ≤ maxFileSize := by
    rcases readable.stat with ⟨-, rfl⟩ | ⟨-, rfl⟩
    · decide
    · exact readable.bound
  rw [← parse_eq heap small readable.delivers readable.noNul]
  rcases readable.stat with ⟨rfl, rfl⟩ | ⟨rfl, rfl⟩
  · rfl
  · rfl

/-- A zero byte behind the contents ends them. -/
theorem parseOptionsFd_zero {heap : Heap} (zero : byteBehind heap chunks bufSize = some 0) :
    parseOptionsFd heap (fun _ => true) (some kind) (chunks.map .bytes) =
      some (generateNvListInt chunks.flatten) := by
  rw [parseOptionsFd_eq readable]
  unfold byteBehind at zero
  obtain ⟨rest, first⟩ := List.head?_eq_some_iff.mp zero
  rw [first, if_pos List.mem_cons_self, List.takeWhile_cons_of_neg (by simp), List.append_nil]

end

/-- A heap of equal bytes. -/
def evenHeap (b : UInt8) : Heap := ⟨fun _ _ => b, fun _ _ => b⟩

theorem slice_const (b : UInt8) (start size : ℕ) :
    Memory.slice (fun _ => b) start size = List.replicate size b := by
  rw [List.eq_replicate_iff]
  refine ⟨Memory.length_slice _ start size, fun c among => ?_⟩
  obtain ⟨i, -, rfl⟩ := List.mem_map.mp among
  rfl

theorem grown_evenHeap (b : UInt8) (start k : ℕ) :
    grown (evenHeap b) start k = List.replicate (start * 2 ^ k) b := by
  induction k with
  | zero => rw [grown, Heap.malloc, evenHeap, slice_const, pow_zero, Nat.mul_one]
  | succ k ih =>
    rw [grown, Heap.realloc, ih, evenHeap, slice_const, List.length_replicate, List.replicate_append_replicate,
      pow_succ, ← Nat.mul_assoc, Nat.mul_two]

/-- On such a heap there are only those bytes behind the contents, and at least one of them. -/
theorem leftover_evenHeap (b : UInt8) {start : ℕ} (positive : 0 < start) (length : ℕ) :
    ∃ n, leftover (evenHeap b) start length = b :: List.replicate n b := by
  have room := lt_grown positive length
  refine ⟨start * 2 ^ doublings start length - length - 1, ?_⟩
  rw [leftover, grown_evenHeap, List.drop_replicate, ← List.replicate_succ]
  congr 1
  omega

theorem byteBehind_evenHeap (b : UInt8) (chunks : List CStr) (bufSize : ℕ) :
    byteBehind (evenHeap b) chunks bufSize = some b := by
  obtain ⟨n, behind⟩ := leftover_evenHeap b bufSize.succ_pos chunks.flatten.length
  rw [byteBehind, behind, List.head?_cons]

/-- Without any zero byte behind the contents the parser leaves the buffer. -/
theorem parseOptionsFd_evenHeap {chunks : List CStr} {kind : FileKind} {bufSize : ℕ}
    (readable : Readable chunks kind bufSize) {b : UInt8} (nonzero : b ≠ 0) :
    parseOptionsFd (evenHeap b) (fun _ => true) (some kind) (chunks.map .bytes) = none := by
  obtain ⟨n, behind⟩ := leftover_evenHeap b bufSize.succ_pos chunks.flatten.length
  rw [parseOptionsFd_eq readable, behind, if_neg]
  rintro among
  rw [← List.replicate_succ] at among
  exact nonzero (List.eq_of_mem_replicate among).symm

/-- A file of known size leaves one byte of its buffer. -/
theorem leftover_other (heap : Heap) (length : ℕ) :
    leftover heap (length + 1) length = [heap.fresh (length + 1) length] := by
  have none_ : doublings (length + 1) length = 0 := by
    rw [doublings, Nat.div_eq_of_lt length.lt_succ_self, Nat.size_zero]
  have split := Memory.slice_add (heap.fresh (length + 1)) 0 length 1
  rw [leftover, none_, grown, Heap.malloc, split, List.drop_left' (Memory.length_slice _ 0 length),
    Memory.slice_one, Nat.zero_add]

/-- A file of known size is parsed as its contents on the heaps that end them. -/
theorem parseOptionsFd_other_iff {chunks : List CStr} {kind : FileKind} {bufSize : ℕ}
    (readable : Readable chunks kind bufSize) (known : kind ≠ .fifo) (heap : Heap) :
    parseOptionsFd heap (fun _ => true) (some kind) (chunks.map .bytes) =
        some (generateNvListInt chunks.flatten) ↔ byteBehind heap chunks bufSize = some 0 := by
  refine ⟨fun read => ?_, parseOptionsFd_zero readable⟩
  obtain ⟨-, rfl⟩ := readable.stat.resolve_left fun pipe => known pipe.1
  have behind := leftover_other heap chunks.flatten.length
  rw [parseOptionsFd_eq readable, behind] at read
  rw [byteBehind, behind, List.head?_cons]
  split_ifs at read with zero
  · rw [List.mem_singleton.mp zero]

/-- **When the result depends on the file only.**  For each file of at most 0xa000 bytes without a zero
byte, however it is read, and each byte that may be left behind its contents: whatever the other bytes of the
buffer are, the file is parsed as its contents if and only if that byte is zero.  A file of known size has no
other bytes there. -/
theorem readsFileOnly_iff {chunks : List CStr} {kind : FileKind} {bufSize : ℕ}
    (readable : Readable chunks kind bufSize) (b : UInt8) :
    ((∀ heap, byteBehind heap chunks bufSize = some b →
      parseOptionsFd heap (fun _ => true) (some kind) (chunks.map .bytes) =
        some (generateNvListInt chunks.flatten)) ↔ b = 0) ∧
    (kind ≠ .fifo → ∀ heap, parseOptionsFd heap (fun _ => true) (some kind) (chunks.map .bytes) =
      some (generateNvListInt chunks.flatten) ↔ byteBehind heap chunks bufSize = some 0) := by
  refine ⟨⟨fun reads => ?_, ?_⟩, parseOptionsFd_other_iff readable⟩
  · by_contra nonzero
    have read := reads (evenHeap b) (byteBehind_evenHeap b chunks bufSize)
    rw [parseOptionsFd_evenHeap readable nonzero] at read
    cases read
  · rintro rfl heap zero
    exact parseOptionsFd_zero readable zero

/-- A file of three bytes that is read in two pieces. -/
theorem readsFileOnly_zeroHeap :
    parseOptionsFd (evenHeap 0) (fun _ => true) (some (.other 3)) ([lit "a", lit "=1"].map .bytes) =
      some (generateNvListInt [lit "a", lit "=1"].flatten) := by
  have readable : Readable [lit "a", lit "=1"] (.other 3) 3 :=
    ⟨.inr ⟨rfl, rfl⟩, ⟨by decide, by decide, by decide, by decide, trivial⟩, by decide, by decide⟩
  exact (readsFileOnly_iff readable 0).1.mpr rfl (evenHeap 0) (byteBehind_evenHeap 0 _ 3)

/-- A heap in which something has been left behind. -/
def usedHeap : Heap := ⟨fun _ i => if i = 1 then 98 else 0, fun _ _ => 0⟩

/-- The option `a` of a pipe is read as `ab`. -/
theorem readsFileOnly_fails :
    Delivers (1024 + 1) 0 [lit "a"] ∧
      parseOptionsFd usedHeap (fun _ => true) (some .fifo) [.bytes (lit "a")] =
        some (0, [⟨lit "ab", none, false⟩]) ∧
      parseOptionsFd usedHeap (fun _ => true) (some .fifo) [.bytes (lit "a")] ≠
        some (generateNvListInt (lit "a")) := by
  have delivers : Delivers (1024 + 1) 0 [lit "a"] := ⟨by decide, by decide, trivial⟩
  have behind : leftover usedHeap (1024 + 1) 1 = 98 :: List.replicate 1023 0 := by
    have none_ : doublings (1024 + 1) 1 = 0 := by
      rw [doublings, Nat.div_eq_of_lt (by decide), Nat.size_zero]
    rw [leftover, none_]
    decide +kernel
  have read : parseOptionsFd usedHeap (fun _ => true) (some .fifo) [.bytes (lit "a")] =
      some (generateNvListInt (lit "ab")) := by
    refine (parse_eq usedHeap (by decide) delivers (by decide)).trans ?_
    rw [show [lit "a"].flatten.length = 1 from rfl, behind]
    decide +kernel
  have parsed : generateNvListInt (lit "ab") = (0, [⟨lit "ab", none, false⟩]) := by
    rw [generateNvListInt_of_lt (by decide)]
    decide
  have only : generateNvListInt (lit "a") = (0, [⟨lit "a", none, false⟩]) := by
    rw [generateNvListInt_of_lt (by decide)]
    decide
  refine ⟨delivers, read.trans (congrArg some parsed), ?_⟩
  rw [read, parsed, only]
  decide

end Ecryptfs
