import Mathlib.Data.List.TakeWhile
import Ecryptfs.CString
import Ecryptfs.Lib.Memory
import Ecryptfs.Lib.Separated

/-!
# The options of the user

`strip_userland_opts` leaves out of the option string what is meant for the mount helper itself.  It cuts
the string at its commas and copies the options that stay into a second buffer, which replaces the first
one at the end.  The length of an option is kept in an `int`: an option of 2^31 characters that stays
cannot be copied.
-/

namespace Ecryptfs

open Memory Separated

/-- `parameters_to_scrub`. -/
def parametersToScrub : List CStr :=
  [lit "key=", lit "cipher=", lit "passthrough", lit "ecryptfs_passthrough", lit "hmac",
    lit "ecryptfs_hmac", lit "xattr", lit "ecryptfs_xattr", lit "encrypted_view",
    lit "ecryptfs_encrypted_view", lit "user", lit "sig", lit "no_sig_cache", lit "verbose",
    lit "verbosity", lit "ecryptfs_enable_filename_crypto"]

/-- `parameters_to_not_scrub`. -/
def parametersToNotScrub : List CStr := [lit "xattr_user"]

/-- `parameter_should_not_be_scrubbed`; `strstr` finds the text at the start. -/
def parameterShouldNotBeScrubbed (str : CStr) : Bool :=
  parametersToNotScrub.any fun parameter => parameter.isPrefixOf str

/-- `parameter_should_be_scrubbed`. -/
def parameterShouldBeScrubbed (str : CStr) : Bool :=
  parametersToScrub.any fun parameter =>
    parameter.isPrefixOf str && !parameterShouldNotBeScrubbed str

/-- The buffer the options are copied to: `temp`, the offset of `temp_end`, and `first`. -/
structure StripBuffer where
  temp : Bytes
  tempEnd : ℕ
  first : Bool

/-- A comma behind the options that were copied before. -/
def StripBuffer.comma (b : StripBuffer) : StripBuffer :=
  if b.first then b else { b with temp := write b.temp b.tempEnd [44], tempEnd := b.tempEnd + 1 }

/-- The length of a string as an `int`. -/
def optLen (cur : CStr) : ℤ := Int.bmod cur.length (2 ^ 32)

/-- An option is copied.  A negative length is a size that no buffer has (`none`). -/
def StripBuffer.copy (b : StripBuffer) (cur : CStr) : Option StripBuffer :=
  let b := b.comma
  if optLen cur < 0 then none
  else
    let copied := cur.take (optLen cur).toNat
    some ⟨write b.temp b.tempEnd copied, b.tempEnd + copied.length, false⟩

theorem length_afterChar {c : UInt8} {s next : CStr} (found : afterChar c s = some next) :
    next.length < s.length := by
  have whole := congrArg List.length (afterChar_some found)
  rw [List.length_append, List.length_cons] at whole
  omega

/-- The loop over the options. -/
def stripLoop (b : StripBuffer) (cur : CStr) : Option StripBuffer :=
  let token := cur.takeWhile (· ≠ 44)
  match (if parameterShouldBeScrubbed token then some b else b.copy token) with
  | none => none
  | some b =>
    match _next : afterChar 44 cur with
    | none => some b
    | some next => stripLoop b next
termination_by cur.length
decreasing_by exact length_afterChar _next

/-- `strip_userland_opts` on an option string, when `malloc` succeeds: the bytes in the place of the
string and of its terminator. -/
def stripUserlandOpts (options : CStr) : Option (List UInt8) :=
  let len := options.length + 1
  (stripLoop ⟨fun _ => 0, 0, true⟩ options).map fun b => slice b.temp 0 len

/-! ## What is copied -/

/-- An option that stays. -/
def staysOption (option : CStr) : Bool := !parameterShouldBeScrubbed option

/-- The part of an option that is copied. -/
def copiedPart (option : CStr) : CStr := option.take (optLen option).toNat

/-- The buffer with the given options in it. -/
def StripBuffer.holding (options : List CStr) : StripBuffer :=
  ⟨Memory.holding (join 44 options) fun _ => 0, (join 44 options).length, options.isEmpty⟩

theorem write_zeroed (a bs : List UInt8) : write (holding a fun _ => 0) a.length bs =
    holding (a ++ bs) fun _ => 0 := by
  rw [write_holding, write_start, holding_append]

/-- The text in the buffer when the next option is copied. -/
theorem StripBuffer.comma_holding (options : List CStr) : ∃ front,
    (StripBuffer.holding options).comma.temp = Memory.holding front (fun _ => 0) ∧
      (StripBuffer.holding options).comma.tempEnd = front.length ∧
      ∀ option, front ++ option = join 44 (options ++ [option]) := by
  rcases eq_or_ne options [] with rfl | some_
  · exact ⟨[], rfl, rfl, fun option => (join_singleton option).symm⟩
  · have notFirst : ¬(StripBuffer.holding options).first = true := by
      simpa [StripBuffer.holding] using some_
    refine ⟨join 44 options ++ [44], ?_, ?_, fun option => ?_⟩
    · rw [StripBuffer.comma, if_neg notFirst]
      exact write_zeroed _ _
    · rw [StripBuffer.comma, if_neg notFirst, List.length_append]
      rfl
    · rw [join_concat some_, List.append_assoc, List.singleton_append]

theorem StripBuffer.copy_of_fits (b : StripBuffer) {option : CStr} (fits : 0 ≤ optLen option) :
    b.copy option = some ⟨write b.comma.temp b.comma.tempEnd (copiedPart option),
      b.comma.tempEnd + (copiedPart option).length, false⟩ := by
  simp only [StripBuffer.copy, if_neg (not_lt.mpr fits), copiedPart]

theorem StripBuffer.copy_holding (options : List CStr) {option : CStr} (fits : 0 ≤ optLen option) :
    (StripBuffer.holding options).copy option =
      some (StripBuffer.holding (options ++ [copiedPart option])) := by
  obtain ⟨front, temp, tempEnd, joined⟩ := StripBuffer.comma_holding options
  have notFirst : (options ++ [copiedPart option]).isEmpty = false := by simp
  rw [StripBuffer.copy_of_fits _ fits, temp, tempEnd, write_zeroed, ← List.length_append, joined,
    StripBuffer.holding, notFirst]

/-- The options that are copied one after the other. -/
theorem foldlM_copy (done options : List CStr) :
    options.foldlM StripBuffer.copy (StripBuffer.holding done) =
      if ∀ option ∈ options, 0 ≤ optLen option then
        some (StripBuffer.holding (done ++ options.map copiedPart))
      else none := by
  induction options generalizing done with
  | nil => simp
  | cons option options ih =>
    rw [List.foldlM_cons]
    by_cases fits : 0 ≤ optLen option
    · rw [StripBuffer.copy_holding done fits]
      show options.foldlM StripBuffer.copy _ = _
      rw [ih]
      simp [fits]
    · have fault : (StripBuffer.holding done).copy option = none := by
        rw [StripBuffer.copy, if_pos (not_le.mp fits)]
      rw [fault]
      simp [fits]

/-- The option at the cursor, as it is copied or left out. -/
theorem foldlM_first (b : StripBuffer) (option : CStr) :
    ([option].filter staysOption).foldlM StripBuffer.copy b =
      if parameterShouldBeScrubbed option then some b else b.copy option := by
  by_cases scrubbed : parameterShouldBeScrubbed option = true
  · rw [if_pos scrubbed, List.filter_cons_of_neg (by simp [staysOption, scrubbed]), List.filter_nil,
      List.foldlM_nil]
    rfl
  · rw [if_neg scrubbed, List.filter_cons_of_pos (by simp [staysOption, scrubbed]), List.filter_nil,
      List.foldlM_cons]
    simp only [List.foldlM_nil, bind_pure]

theorem fields_takeWhile (cur : CStr) : fields 44 (cur.takeWhile (· ≠ 44)) = [cur.takeWhile (· ≠ 44)] :=
  fields_of_notMem fun among => by simpa using List.mem_takeWhile_imp among

/-- The loop copies the options that stay. -/
theorem stripLoop_eq (b : StripBuffer) (cur : CStr) :
    stripLoop b cur = ((fields 44 cur).filter staysOption).foldlM StripBuffer.copy b := by
  have split : ∀ {cur next : CStr}, afterChar 44 cur = some next →
      fields 44 cur = [cur.takeWhile (· ≠ 44)] ++ fields 44 next := by
    intro cur next found
    conv_lhs => rw [afterChar_some found, fields_append, fields_takeWhile]
  have last : ∀ {cur : CStr}, afterChar 44 cur = none →
      fields 44 cur = [cur.takeWhile (· ≠ 44)] := by
    intro cur missing
    conv_lhs => rw [← afterChar_none missing, fields_takeWhile]
  fun_induction stripLoop b cur with
  | case1 b cur token fault =>
    have first := foldlM_first b token
    rw [show (if parameterShouldBeScrubbed token then some b else b.copy token) = none from fault]
      at first
    rcases found : afterChar 44 cur with _ | next
    · rw [last found, first]
    · rw [split found, List.filter_append, List.foldlM_append, first]
      rfl
  | case2 b cur token b' copied missing =>
    have first := foldlM_first b token
    rw [show (if parameterShouldBeScrubbed token then some b else b.copy token) = some b' from copied]
      at first
    rw [last missing, first]
  | case3 b cur token b' copied next found ih =>
    have first := foldlM_first b token
    rw [show (if parameterShouldBeScrubbed token then some b else b.copy token) = some b' from copied]
      at first
    rw [split found, List.filter_append, List.foldlM_append, first, ih]
    rfl

/-! ## The string afterwards -/

/-- The options of a string that stay. -/
def keptOptions (options : CStr) : List CStr := (fields 44 options).filter staysOption

theorem length_copiedPart_le (option : CStr) : (copiedPart option).length ≤ option.length := by
  rw [copiedPart, List.length_take]
  exact min_le_right _ _

theorem slice_zeros {a : List UInt8} {n : ℕ} (fits : a.length ≤ n) :
    slice (holding a fun _ => 0) 0 n = a ++ List.replicate (n - a.length) 0 := by
  obtain ⟨k, rfl⟩ := Nat.exists_eq_add_of_le fits
  rw [slice_add, slice_holding, Nat.add_sub_cancel_left, Nat.zero_add]
  refine congrArg (a ++ ·) (List.eq_replicate_iff.mpr ⟨length_slice _ _ _, fun b among => ?_⟩)
  obtain ⟨i, -, rfl⟩ := List.mem_map.mp among
  exact holding_length_add a _ i

theorem length_join_copied (options : CStr) :
    (join 44 ((keptOptions options).map copiedPart)).length ≤ options.length := by
  have copied : (join 44 ((keptOptions options).map copiedPart)).length ≤
      (join 44 (keptOptions options)).length :=
    length_join_map_le fun option _ => length_copiedPart_le option
  exact copied.trans (length_keep_le staysOption options)

/-- What `strip_userland_opts` leaves: the copied parts, and zeros behind them. -/
theorem stripUserlandOpts_eq (options : CStr) : stripUserlandOpts options =
    if ∀ option ∈ keptOptions options, 0 ≤ optLen option then
      some (join 44 ((keptOptions options).map copiedPart) ++
        List.replicate (options.length + 1 - (join 44 ((keptOptions options).map copiedPart)).length) 0)
    else none := by
  have start : (⟨fun _ => 0, 0, true⟩ : StripBuffer) = StripBuffer.holding [] := by
    rw [StripBuffer.holding, join_nil, holding_nil]
    rfl
  have fits := (length_join_copied options).trans (Nat.le_succ _)
  rw [stripUserlandOpts, stripLoop_eq, start, foldlM_copy, List.nil_append]
  split_ifs with all all'
  · rw [Option.map_some]
    exact congrArg some (slice_zeros fits)
  · exact absurd all all'
  · contradiction
  · rfl

theorem optLen_of_lt {option : CStr} (short : option.length < 2 ^ 31) :
    optLen option = option.length := bmod_length short

theorem optLen_lt (option : CStr) : optLen option < 2 ^ 31 := by
  have below := Int.bmod_lt (x := (option.length : ℤ)) (Nat.two_pow_pos 32)
  unfold optLen
  omega

theorem copiedPart_of_lt {option : CStr} (short : option.length < 2 ^ 31) :
    copiedPart option = option := by
  rw [copiedPart, optLen_of_lt short, Int.toNat_natCast, List.take_length]

theorem copiedPart_of_ge {option : CStr} (long : 2 ^ 31 ≤ option.length) :
    (copiedPart option).length < option.length := by
  have below := optLen_lt option
  rw [copiedPart, List.length_take]
  omega

theorem cString_zeros {a : List UInt8} (noNul : 0 ∉ a) (n : ℕ) :
    cString (a ++ List.replicate n 0) = a := by
  rw [cString_append_zeros, cString_of_notMem noNul]

theorem noNul_join {ts : List CStr} (noNul : ∀ t ∈ ts, 0 ∉ t) : 0 ∉ join 44 ts := by
  intro inside
  rcases mem_join inside with isComma | ⟨t, among, inside⟩
  · exact absurd isComma (by decide)
  · exact noNul t among inside

/-- When no option that stays is too long for an `int`, the string is what it should be. -/
theorem stripUserlandOpts_of_lt {options : CStr}
    (short : ∀ option ∈ keptOptions options, option.length < 2 ^ 31) :
    stripUserlandOpts options = some (join 44 (keptOptions options) ++
      List.replicate (options.length + 1 - (join 44 (keptOptions options)).length) 0) := by
  have all : (keptOptions options).map copiedPart = keptOptions options :=
    (List.map_congr_left fun option among => copiedPart_of_lt (short option among)).trans
      (List.map_id _)
  have fit : ∀ option ∈ keptOptions options, 0 ≤ optLen option := by
    intro option among
    rw [optLen_of_lt (short option among)]
    exact Int.natCast_nonneg _
  rw [stripUserlandOpts_eq, if_pos fit, all]

theorem staysOption_nil : staysOption [] = true := by decide

/-- An option that carries the attributes of a key is left out. -/
theorem key_scrubbed {option : CStr} (isKey : lit "key=" <+: option) :
    staysOption option = false := by
  obtain ⟨rest, rfl⟩ := isKey
  have parameter : (lit "key=").isPrefixOf (lit "key=" ++ rest) = true :=
    List.isPrefixOf_iff_prefix.mpr (List.prefix_append _ _)
  have exception : parameterShouldNotBeScrubbed (lit "key=" ++ rest) = false := rfl
  have scrubbed : parameterShouldBeScrubbed (lit "key=" ++ rest) = true :=
    List.any_eq_true.mpr ⟨lit "key=", List.mem_cons_self, by rw [parameter, exception]; rfl⟩
  rw [staysOption, scrubbed]
  rfl

/-- The string becomes the options that stay, in their order and with zeros behind them; a second run
changes nothing, and no option with the attributes of a key is left. -/
def Stripped (options : CStr) : Prop :=
  ∃ bytes, stripUserlandOpts options = some bytes ∧
    bytes = join 44 (keptOptions options) ++
      List.replicate (options.length + 1 - (join 44 (keptOptions options)).length) 0 ∧
    (join 44 (keptOptions options)).length ≤ options.length ∧
    (∃ again, stripUserlandOpts (cString bytes) = some again ∧ cString again = cString bytes) ∧
    ∀ option ∈ fields 44 (cString bytes), ¬ lit "key=" <+: option

/-- **When the options of the user are stripped.**  A string is rewritten to the options that stay
exactly when each of them is shorter than 2^31 characters. -/
theorem stripped_iff {options : CStr} (noNul : 0 ∉ options) : Stripped options ↔
    ∀ option ∈ fields 44 options, parameterShouldBeScrubbed option = false →
      option.length < 2 ^ 31 := by
  have noNul' : ∀ option ∈ keptOptions options, 0 ∉ option :=
    fun option among inside => noNul (mem_of_mem_fields (List.mem_filter.mp among).1 inside)
  constructor
  · rintro ⟨bytes, strips, isText, -⟩ option among stays
    by_contra long
    have kept : option ∈ keptOptions options :=
      List.mem_filter.mpr ⟨among, by rw [staysOption, stays]; rfl⟩
    have shorter : (join 44 ((keptOptions options).map copiedPart)).length <
        (join 44 (keptOptions options)).length :=
      length_join_map_lt (fun option _ => length_copiedPart_le option)
        ⟨option, kept, copiedPart_of_ge (not_lt.mp long)⟩
    rw [stripUserlandOpts_eq] at strips
    split_ifs at strips
    have texts := congrArg cString ((Option.some.inj strips).trans isText)
    rw [cString_zeros (noNul_join noNul'), cString_zeros (noNul_join ?_)] at texts
    · rw [texts] at shorter
      exact absurd shorter (lt_irrefl _)
    · intro t among inside
      obtain ⟨option, kept, rfl⟩ := List.mem_map.mp among
      exact noNul' option kept (List.mem_of_mem_take inside)
  · intro short
    have short' : ∀ option ∈ keptOptions options, option.length < 2 ^ 31 := by
      intro option among
      obtain ⟨inside, stays⟩ := List.mem_filter.mp among
      exact short option inside (by simpa [staysOption] using stays)
    have text := cString_zeros (noNul_join noNul')
    have wanted : ∀ {option}, option ∈ fields 44 (join 44 (keptOptions options)) →
        staysOption option = true := fun among => wanted_of_mem_fields_keep staysOption_nil among
    refine ⟨_, stripUserlandOpts_of_lt short', rfl, length_keep_le staysOption options, ?_, ?_⟩
    · rw [text]
      have all : keptOptions (join 44 (keptOptions options)) =
          fields 44 (join 44 (keptOptions options)) :=
        List.filter_eq_self.mpr fun option among => wanted among
      refine ⟨_, stripUserlandOpts_of_lt ?_, ?_⟩
      · intro option among
        rw [all] at among
        rcases mem_fields_keep among with rfl | kept
        · exact Nat.two_pow_pos 31
        · exact short' option kept
      · rw [all, join_fields, text]
    · intro option among isKey
      rw [text] at among
      exact Bool.false_ne_true ((key_scrubbed isKey).symm.trans (wanted among))

theorem stripped_iff_sample : Stripped (lit "rw,key=passphrase:passwd=x,,xattr_user,xattr") :=
  (stripped_iff (by decide)).mpr (by decide)

end Ecryptfs
