import Ecryptfs.Stat.Header

/-!
# The header of a short file

`parseStat` checks once that twenty bytes are there, and reads twenty-six where the marker matches.  For
a file that ends in between, the last bytes of its header are whatever the buffer of `ecryptfs-stat` held
before.
-/

namespace Ecryptfs

open Memory Memory.Access

/-! ## What is read -/

section

variable (host : Words.ByteOrder) (m : Bytes)

@[simp] theorem reads_readLong (buf : ℕ) : (readLong host buf).reads m = offsets buf 4 := by
  rw [readLong, reads_bind, reads_memcpy, reads_pure, List.append_nil]

@[simp] theorem reads_readShort (buf : ℕ) : (readShort host buf).reads m = offsets buf 2 := by
  rw [readShort, reads_bind, reads_memcpy, reads_pure, List.append_nil]

@[simp] theorem reads_readFileSize (buf : ℕ) : (readFileSize host buf).reads m = offsets buf 8 := by
  rw [readFileSize, reads_bind, reads_memcpy, reads_pure, List.append_nil]
  rfl

@[simp] theorem reads_containsMarker (data : ℕ) :
    (containsMarker host data).reads m = offsets data 4 ++ offsets (data + 4) 4 := by
  rw [containsMarker, reads_bind, reads_bind, reads_readLong, reads_readLong, reads_pure,
    List.append_nil]

@[simp] theorem reads_processFlags (s : CryptStat) (buf : ℕ) :
    (processFlags host s buf).reads m = offsets buf 4 := by
  rw [processFlags, reads_bind, reads_readLong, reads_pure, List.append_nil]

@[simp] theorem reads_parseHeaderMetadata (s : CryptStat) (buf : ℕ) (validate : Bool) :
    (parseHeaderMetadata host s buf validate).reads m = offsets buf 4 ++ offsets (buf + 4) 2 := by
  rw [parseHeaderMetadata, reads_bind, reads_bind, reads_readLong, reads_readShort, reads_pure,
    List.append_nil]

/-- The bytes `parseStat` reads, once it has not refused the size. -/
theorem mem_reads_parseStat (s : CryptStat) {bufSize : ℕ} (enough : 20 ≤ bufSize) (k : ℕ) :
    k ∈ (parseStat host s bufSize).reads m ↔ k < if MarkerAt m 8 then 26 else 16 := by
  have long : ¬bufSize < fileSizeBytes + markerSizeBytes + 4 := not_lt.mpr enough
  rw [parseStat, if_neg long, reads_bind, run_readFileSize, reads_readFileSize, reads_bind,
    run_containsMarker, reads_containsMarker]
  by_cases marker : MarkerAt m 8
  · have found : decide (MarkerAt m fileSizeBytes) = true := decide_eq_true marker
    rw [found, if_pos marker, if_neg (by decide), reads_bind, reads_processFlags, run_processFlags,
      reads_bind, reads_parseHeaderMetadata, reads_pure]
    simp only [List.mem_append, mem_offsets, List.not_mem_nil, or_false, fileSizeBytes,
      markerSizeBytes]
    omega
  · have missing : decide (MarkerAt m fileSizeBytes) = false := decide_eq_false marker
    rw [missing, if_neg marker, if_pos (by decide), reads_pure]
    simp only [List.mem_append, mem_offsets, List.not_mem_nil, or_false, fileSizeBytes]
    omega

theorem parseStat_short (s : CryptStat) {bufSize : ℕ} (short : bufSize < 20) :
    parseStat host s bufSize = pure (-einval, s) := if_pos short

end

/-- The marker of a buffer, if it is there at all, is in its first sixteen bytes. -/
theorem markerAt_holding {b : List UInt8} (enough : 16 ≤ b.length) (beyond : Bytes) :
    MarkerAt (holding b beyond) 8 ↔ numberAt b 12 4 = numberAt b 8 4 ^^^ 0x3c81b7f5 := by
  rw [MarkerAt, field_holding_inside (by omega), field_holding_inside (by omega)]

/-- Where the parser stays inside the bytes it is given. -/
theorem parseStat_reads_inside (host : Words.ByteOrder) (s : CryptStat) {b : List UInt8}
    (complete : b.length < 20 ∨ 26 ≤ b.length ∨
      numberAt b 12 4 ≠ numberAt b 8 4 ^^^ 0x3c81b7f5) (beyond : Bytes) :
    ∀ k ∈ (parseStat host s b.length).reads (holding b beyond), k < b.length := by
  intro k among
  rcases Nat.lt_or_ge b.length 20 with short | enough
  · rw [parseStat_short host s short] at among
    exact absurd among List.not_mem_nil
  · rw [mem_reads_parseStat host _ s enough] at among
    split_ifs at among with found
    · rcases complete with short | whole | missing
      · omega
      · omega
      · exact absurd ((markerAt_holding (by omega) beyond).mp found) missing
    · omega

/-- **When the answer depends on the file only.**  The parser stays inside the bytes it is given, and
gives the same answer whatever lies behind them, exactly when there are fewer than twenty, which it
refuses, a whole header, or no marker. -/
theorem parseStat_inside_iff (host : Words.ByteOrder) (s : CryptStat) (b : List UInt8) :
    ((∀ beyond, ∀ k ∈ (parseStat host s b.length).reads (holding b beyond), k < b.length) ∧
      ∀ beyond beyond', (parseStat host s b.length).run (holding b beyond) =
        (parseStat host s b.length).run (holding b beyond')) ↔
      b.length < 20 ∨ 26 ≤ b.length ∨ numberAt b 12 4 ≠ numberAt b 8 4 ^^^ 0x3c81b7f5 := by
  constructor
  · rintro ⟨inside, -⟩
    by_contra partial_
    push Not at partial_
    obtain ⟨enough, cut, found⟩ := partial_
    have marker := (markerAt_holding (by omega) fun _ => 0).mpr found
    have last : 25 ∈ (parseStat host s b.length).reads (holding b fun _ => 0) := by
      rw [mem_reads_parseStat host _ s enough, if_pos marker]
      norm_num
    have := inside _ 25 last
    omega
  · intro complete
    have inside := parseStat_reads_inside host s complete
    exact ⟨inside, fun beyond beyond' => run_holding_congr beyond' (inside beyond)⟩

/-- The first twenty bytes of a header, with what the stack happens to hold behind them. -/
theorem parseStat_stale :
    let b := sampleHeader.take 20
    ¬((∀ beyond, ∀ k ∈ (parseStat .little CryptStat.zero b.length).reads (holding b beyond),
        k < b.length) ∧
      ∀ beyond beyond', (parseStat .little CryptStat.zero b.length).run (holding b beyond) =
        (parseStat .little CryptStat.zero b.length).run (holding b beyond')) := by
  intro b
  rintro ⟨-, same⟩
  have codes := congrArg Prod.fst (same (fun _ => 0) (holding (sampleHeader.drop 20) fun _ => 0))
  exact absurd codes (by decide)

end Ecryptfs
