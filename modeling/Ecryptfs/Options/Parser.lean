import Ecryptfs.Graph.Engine

/-!
# The option parser

`generate_nv_list` splits the text of the mount options at commas and newlines, and
`process_comma_tok` splits a token that begins with `key=` once more at colons, so that the attributes
of a key become pairs of their own.  A pair ends its name at the last `=` of its text, although
values may contain that character as well: exactly the options whose values do not are read back as
they were written.
-/

namespace Ecryptfs

def maxTokLen : ℕ := 128

/-! ## Tokens -/

/-- The loop over the characters of a pair: the name, and the place of the `=` behind it.  Every `=`
starts the search for the value anew. -/
def scanName (subToken : CStr) (i : ℕ) : CStr → Option CStr × ℕ → Option CStr × ℕ
  | [], found => found
  | c :: rest, found =>
    scanName subToken (i + 1) rest (if c = 61 then (some (subToken.take i), i) else found)

/-- The part of `process_comma_tok` from the label `process_nv_pair` on: the pair is put at the end
of the list.  Only the printed length `stLen` knows of what `snprintf` cuts off. -/
def processNvPair (tok : CStr) (pre : Option CStr) (list : List NameValPair) :
    ℤ × List NameValPair :=
  let whole := pre.getD [] ++ tok
  let stLen := whole.length
  let subToken := whole.take (maxTokLen - 1)
  let (name, value) : CStr × Option CStr :=
    match scanName subToken 0 subToken (none, 0) with
    | (none, _) => (subToken, none)
    | (some name, j) => (name, if stLen - j > 1 then some (subToken.drop (j + 1)) else none)
  if name.length = 0 then (0, list) else (0, list ++ [⟨name, value, false⟩])

/-- A token that begins with `key=` and has a colon behind it. -/
def isColonList (tok : CStr) : Bool :=
  decide (tok.length > 4) && (lit "key=").isPrefixOf tok && (tok.drop 4).contains 58

/-- The loop from the label `process_colon_list` on, with the characters of the sub-token read so
far. -/
def colonLoop (self : CStr → Option CStr → List NameValPair → ℤ × List NameValPair)
    (subToken : CStr) : CStr → List NameValPair → ℤ × List NameValPair
  | [], list => self subToken (some []) list
  | c :: rest, list =>
    if c = 58 then
      let result := self subToken none list
      if result.1 ≠ 0 then result else colonLoop self [] rest result.2
    else colonLoop self (subToken ++ [c]) rest list

/-- `process_comma_tok`, with at most `depth` calls of itself inside each other: its code, and the list
with the pairs of the token at its end.  What it calls itself for has no colon and is not split again. -/
def processCommaTok : ℕ → CStr → Option CStr → List NameValPair → ℤ × List NameValPair
  | depth, tok, pre, list =>
    if tok = [] then (0, list)
    else if tok.length > maxTokLen then (-einval, list)
    else if tok.head? = some 61 ∨ tok.head? = some 58 then (-einval, list)
    else if isColonList tok then
      match depth with
      | 0 => (-einval, list)
      | depth + 1 => colonLoop (processCommaTok depth) [] tok list
    else processNvPair tok pre list

/-- The loop of `generate_nv_list`, with the characters of the token read so far; a token that fills
its buffer ends it with success. -/
def nvListLoop (tokStr : CStr) : CStr → List NameValPair → ℤ × List NameValPair
  | [], list => processCommaTok 1 tokStr none list
  | c :: rest, list =>
    if c = 44 ∨ c = 10 then
      let result := processCommaTok 1 tokStr none list
      if result.1 ≠ 0 then result else nvListLoop [] rest result.2
    else if tokStr.length + 1 = maxTokLen then (0, list)
    else nvListLoop (tokStr ++ [c]) rest list

/-- The code of `generate_nv_list` and the list behind the head, on the `buf_len` characters that its loop
looks at. -/
def generateNvList (buf : CStr) : ℤ × List NameValPair := nvListLoop [] buf []

/-- The part of a text that the loop of `generate_nv_list` looks at: as many characters as the length
of the text is when it is stored in an `int`. -/
def seenText (buf : CStr) : CStr := buf.take (Int.bmod buf.length (2 ^ 32)).toNat

/-- `generate_nv_list` for a text of any length. -/
def generateNvListInt (buf : CStr) : ℤ × List NameValPair := generateNvList (seenText buf)

/-- `ecryptfs_parse_options`, for options of any length that may be missing. -/
def parseOptionsInt : Option CStr → ℤ × List NameValPair
  | none => (0, [])
  | some opts => generateNvListInt opts

theorem seenText_of_lt {buf : CStr} (fits : buf.length < 2 ^ 31) : seenText buf = buf := by
  rw [seenText, bmod_length fits, Int.toNat_natCast, List.take_length]

theorem seenText_append (buf : CStr) : ∃ x, buf = seenText buf ++ x :=
  ⟨_, (List.take_append_drop _ buf).symm⟩

theorem generateNvListInt_of_lt {buf : CStr} (fits : buf.length < 2 ^ 31) :
    generateNvListInt buf = generateNvList buf := by
  rw [generateNvListInt, seenText_of_lt fits]

/-! ## What the parser makes of tokens -/

/-- A text without a colon is not split. -/
theorem isColonList_of_notMem {tok : CStr} (noColon : 58 ∉ tok) : isColonList tok = false := by
  have absent : (tok.drop 4).contains 58 = false := by
    rw [Bool.eq_false_iff, ne_eq, List.contains_iff_mem]
    intro among
    exact noColon (List.mem_of_mem_drop among)
  rw [isColonList, absent, Bool.and_false]

/-- A token that is one pair. -/
theorem processCommaTok_pair (depth : ℕ) {c : UInt8} {rest : CStr} (pre : Option CStr)
    (list : List NameValPair) (fits : (c :: rest).length ≤ maxTokLen) (notEq : c ≠ 61)
    (noColon : 58 ∉ c :: rest) :
    processCommaTok depth (c :: rest) pre list = processNvPair (c :: rest) pre list := by
  have notColon : c ≠ 58 := by
    rintro rfl
    exact noColon List.mem_cons_self
  have noSeparator : ¬ ((c :: rest).head? = some 61 ∨ (c :: rest).head? = some 58) := by
    simp [notEq, notColon]
  unfold processCommaTok
  rw [if_neg (List.cons_ne_nil c rest), if_neg (not_lt.mpr fits), if_neg noSeparator,
    if_neg (by rw [isColonList_of_notMem noColon]; exact Bool.false_ne_true)]

theorem scanName_of_notMem (subToken : CStr) {rest : CStr} (noEq : 61 ∉ rest) (i : ℕ)
    (found : Option CStr × ℕ) : scanName subToken i rest found = found := by
  induction rest generalizing i found with
  | nil => rfl
  | cons c rest ih =>
    rw [List.mem_cons, not_or] at noEq
    rw [scanName, if_neg (Ne.symm noEq.1), ih noEq.2]

/-- The name ends at the last `=`. -/
theorem scanName_last (front : CStr) {back : CStr} (noEq : 61 ∉ back) (subToken : CStr) (i : ℕ)
    (found : Option CStr × ℕ) :
    scanName subToken i (front ++ 61 :: back) found =
      (some (subToken.take (i + front.length)), i + front.length) := by
  induction front generalizing i found with
  | nil =>
    rw [List.nil_append, scanName, if_pos rfl, scanName_of_notMem subToken noEq, List.length_nil,
      Nat.add_zero]
  | cons c front ih =>
    rw [List.cons_append, scanName, ih, List.length_cons,
      show i + 1 + front.length = i + (front.length + 1) by omega]

/-- An empty value is a null pointer. -/
def valueOf (text : CStr) : Option CStr := if text = [] then none else some text

/-- A pair whose text has its last `=` behind `front`. -/
theorem processNvPair_last {front back : CStr} (noEq : 61 ∉ back) (named : front ≠ [])
    (fits : (front ++ 61 :: back).length < maxTokLen) {pre : Option CStr} (noPrefix : pre.getD [] = [])
    (list : List NameValPair) :
    processNvPair (front ++ 61 :: back) pre list = (0, list ++ [⟨front, valueOf back, false⟩]) := by
  have whole : (front ++ 61 :: back).take (maxTokLen - 1) = front ++ 61 :: back :=
    List.take_of_length_le (by omega)
  have scanned : scanName (front ++ 61 :: back) 0 (front ++ 61 :: back) (none, 0) =
      (some front, front.length) := by
    rw [scanName_last front noEq, Nat.zero_add, List.take_left]
  have value : (if (front ++ 61 :: back).length - front.length > 1 then
      some ((front ++ 61 :: back).drop (front.length + 1)) else none) = valueOf back := by
    rw [← List.drop_drop, List.drop_left, List.drop_one, List.tail_cons, valueOf]
    rcases back with _ | ⟨d, back⟩
    · simp
    · rw [if_pos (by simp), if_neg (List.cons_ne_nil d back)]
  have nonempty : front.length ≠ 0 := fun zero => named (List.eq_nil_of_length_eq_zero zero)
  unfold processNvPair
  simp only [noPrefix, List.nil_append, whole, scanned, value]
  rw [if_neg nonempty]

/-! ## What the loops make of separated texts -/

section Loops

variable (self : CStr → Option CStr → List NameValPair → ℤ × List NameValPair)

theorem colonLoop_append {t : CStr} (noColon : 58 ∉ t) (subToken rest : CStr)
    (list : List NameValPair) :
    colonLoop self subToken (t ++ rest) list = colonLoop self (subToken ++ t) rest list := by
  induction t generalizing subToken with
  | nil => rw [List.nil_append, List.append_nil]
  | cons c t ih =>
    rw [List.mem_cons, not_or] at noColon
    rw [List.cons_append, colonLoop, if_neg (Ne.symm noColon.1), ih noColon.2, List.append_assoc]
    rfl

/-- Sub-tokens that are all accepted add their pairs one after the other. -/
theorem colonLoop_intercalate (pairs : CStr → List NameValPair) {t : CStr} {ts : List CStr}
    (noColon : ∀ u ∈ t :: ts, 58 ∉ u)
    (accepted : ∀ u ∈ t :: ts, ∀ pre list, Option.getD pre [] = [] →
      self u pre list = (0, list ++ pairs u)) (list : List NameValPair) :
    colonLoop self [] ([58].intercalate (t :: ts)) list = (0, list ++ (t :: ts).flatMap pairs) := by
  induction ts generalizing t list with
  | nil =>
    have single := colonLoop_append self (noColon t List.mem_cons_self) [] [] list
    rw [List.append_nil, List.nil_append] at single
    rw [List.intercalate_singleton, single, colonLoop,
      accepted t List.mem_cons_self (some []) list rfl]
    simp
  | cons u ts ih =>
    have later : ∀ v ∈ u :: ts, v ∈ t :: u :: ts := fun v among => List.mem_cons_of_mem t among
    have rest := ih (fun v among => noColon v (later v among))
      (fun v among => accepted v (later v among)) (list ++ pairs t)
    rw [List.intercalate_cons_cons, List.append_assoc,
      colonLoop_append self (noColon t List.mem_cons_self), List.nil_append, List.singleton_append,
      colonLoop, if_pos rfl]
    simp only [accepted t List.mem_cons_self none list rfl, ne_eq, not_true, if_false]
    rw [rest, List.append_assoc, ← List.flatMap_cons]

end Loops

/-- The characters at which the options are split. -/
def Separates (c : UInt8) : Prop := c = 44 ∨ c = 10

theorem nvListLoop_append {t : CStr} (whole : ∀ c ∈ t, ¬ Separates c) (tokStr rest : CStr)
    (list : List NameValPair) (fits : tokStr.length + t.length < maxTokLen) :
    nvListLoop tokStr (t ++ rest) list = nvListLoop (tokStr ++ t) rest list := by
  induction t generalizing tokStr with
  | nil => rw [List.nil_append, List.append_nil]
  | cons c t ih =>
    rw [List.length_cons] at fits
    have room : ¬ tokStr.length + 1 = maxTokLen := by omega
    have inside : ¬ (c = 44 ∨ c = 10) := whole c List.mem_cons_self
    rw [List.cons_append, nvListLoop, if_neg inside, if_neg room,
      ih (fun d among => whole d (List.mem_cons_of_mem c among)) _
        (by rw [List.length_append, List.length_singleton]; omega), List.append_assoc]
    rfl

/-- Tokens that are all accepted add their pairs one after the other. -/
theorem nvListLoop_intercalate {c : UInt8} (separator : Separates c)
    (pairs : CStr → List NameValPair) {t : CStr} {ts : List CStr}
    (whole : ∀ u ∈ t :: ts, ∀ c ∈ u, ¬ Separates c)
    (fits : ∀ u ∈ t :: ts, u.length < maxTokLen)
    (accepted : ∀ u ∈ t :: ts, ∀ list, processCommaTok 1 u none list = (0, list ++ pairs u))
    (list : List NameValPair) :
    nvListLoop [] ([c].intercalate (t :: ts)) list = (0, list ++ (t :: ts).flatMap pairs) := by
  have short : ([] : CStr).length + t.length < maxTokLen := by
    rw [List.length_nil, Nat.zero_add]
    exact fits t List.mem_cons_self
  induction ts generalizing t list with
  | nil =>
    have single := nvListLoop_append (whole t List.mem_cons_self) [] [] list short
    rw [List.append_nil, List.nil_append] at single
    rw [List.intercalate_singleton, single, nvListLoop, accepted t List.mem_cons_self list]
    simp
  | cons u ts ih =>
    have later : ∀ v ∈ u :: ts, v ∈ t :: u :: ts := fun v among => List.mem_cons_of_mem t among
    have rest := ih (fun v among => whole v (later v among)) (fun v among => fits v (later v among))
      (fun v among => accepted v (later v among)) (list ++ pairs t)
      (by rw [List.length_nil, Nat.zero_add]; exact fits u (later u List.mem_cons_self))
    rw [List.intercalate_cons_cons, List.append_assoc,
      nvListLoop_append (whole t List.mem_cons_self) [] _ list short, List.nil_append,
      List.singleton_append, nvListLoop, if_pos (show c = 44 ∨ c = 10 from separator)]
    simp only [accepted t List.mem_cons_self list, ne_eq, not_true, if_false]
    rw [rest, List.append_assoc, ← List.flatMap_cons]

end Ecryptfs
