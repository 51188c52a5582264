import Ecryptfs.Options.Grammar

/-!
# Tokens of the options

The parser reads its text token by token, and the tokens that are split at colons part by part.  What
it comes to depends on these parts alone (`generateNvList_eq`): each of them adds its pair, the first
malformed one ends the parser with an error, and a token that does not fit its buffer ends it without
one.  `parsesCompletely_iff` says which texts are read to their end or refused.
-/

namespace Ecryptfs

instance : DecidablePred Separates := fun c => inferInstanceAs (Decidable (c = 44 ∨ c = 10))

/-- What stands between the commas and newlines of a text. -/
def tokens (buf : CStr) : List CStr := buf.splitOnP fun c => decide (Separates c)

/-- The attributes of a token: its parts between colons if it is a key with attributes, and else the
token itself; empty ones are none. -/
def attributesOf (tok : CStr) : List CStr :=
  (if isColonList tok then tok.splitOn 58 else [tok]).filter (· ≠ [])

/-- The attributes of a text. -/
def attributes (buf : CStr) : List CStr := (tokens buf).flatMap attributesOf

/-- An attribute that the parser refuses. -/
def Malformed (part : CStr) : Prop := part.head? = some 61 ∨ part.head? = some 58

instance : DecidablePred Malformed := fun part =>
  inferInstanceAs (Decidable (part.head? = some 61 ∨ part.head? = some 58))

/-- The pair that an attribute stands for: its value is what follows the last `=`, if there is one. -/
def attributePair (part : CStr) : NameValPair :=
  if 61 ∈ part then readPair part else ⟨part, none, false⟩

/-- What becomes of attributes that are read one after the other: they add their pairs up to the first
malformed one. -/
def readAttributes (parts : List CStr) : ℤ × List NameValPair :=
  (if ∃ part ∈ parts, Malformed part then -einval else 0,
    (parts.takeWhile fun part => ¬ Malformed part).map attributePair)

/-- The result with some pairs in front of it. -/
def behind (list : List NameValPair) (result : ℤ × List NameValPair) : ℤ × List NameValPair :=
  (result.1, list ++ result.2)

@[simp] theorem behind_fst (list : List NameValPair) (result : ℤ × List NameValPair) :
    (behind list result).1 = result.1 := rfl

theorem behind_behind (list list' : List NameValPair) (result : ℤ × List NameValPair) :
    behind list (behind list' result) = behind (list ++ list') result := by
  simp [behind]

theorem readAttributes_cons (part : CStr) (parts : List CStr) :
    readAttributes (part :: parts) =
      if Malformed part then (-einval, []) else behind [attributePair part] (readAttributes parts) := by
  unfold readAttributes behind
  by_cases bad : Malformed part
  · simp [bad]
  · simp [bad]

theorem readAttributes_fst (parts : List CStr) :
    (readAttributes parts).1 ≠ 0 ↔ ∃ part ∈ parts, Malformed part := by
  unfold readAttributes einval
  dsimp only
  split_ifs with bad
  · simpa using bad
  · simpa using bad

theorem readAttributes_of_wellFormed {parts : List CStr}
    (wellFormed : ∀ part ∈ parts, ¬ Malformed part) :
    readAttributes parts = (0, parts.map attributePair) := by
  have none_ : ¬ ∃ part ∈ parts, Malformed part := fun ⟨part, among, bad⟩ => wellFormed part among bad
  have all : (parts.takeWhile fun part => ¬ Malformed part) = parts :=
    List.takeWhile_eq_self_iff.mpr fun part among => decide_eq_true (wellFormed part among)
  rw [readAttributes, if_neg none_, all]

/-- Attributes behind others are read if none of these is malformed. -/
theorem readAttributes_append (parts parts' : List CStr) :
    readAttributes (parts ++ parts') =
      if (readAttributes parts).1 ≠ 0 then readAttributes parts
      else behind (readAttributes parts).2 (readAttributes parts') := by
  induction parts with
  | nil => simp [readAttributes, behind]
  | cons part parts ih =>
    rw [List.cons_append, readAttributes_cons, readAttributes_cons, ih]
    by_cases bad : Malformed part
    · simp [bad, einval]
    · simp only [if_neg bad, behind]
      split_ifs
      · rfl
      · simp

/-! ## One token -/

/-- A text that does not begin with a separator is one pair. -/
theorem processNvPair_eq {part : CStr} (some_ : part ≠ []) (wellFormed : ¬ Malformed part)
    (fits : part.length < maxTokLen) {pre : Option CStr} (noPrefix : pre.getD [] = [])
    (list : List NameValPair) : processNvPair part pre list = (0, list ++ [attributePair part]) := by
  by_cases isPair : 61 ∈ part
  · obtain ⟨front, back, rfl, noEq⟩ := exists_last isPair
    have named : front ≠ [] := by
      rintro rfl
      exact wellFormed (.inl rfl)
    rw [processNvPair_last noEq named fits noPrefix, attributePair, if_pos isPair, readPair_last noEq]
  · have whole : part.take (maxTokLen - 1) = part := List.take_of_length_le (by omega)
    have nonempty : part.length ≠ 0 := fun zero => some_ (List.eq_nil_of_length_eq_zero zero)
    unfold processNvPair
    simp only [noPrefix, List.nil_append, whole, scanName_of_notMem part isPair, if_neg nonempty]
    rw [attributePair, if_neg isPair]

/-- A token that is not split. -/
theorem processCommaTok_whole (depth : ℕ) {tok : CStr} (whole : isColonList tok = false)
    (fits : tok.length < maxTokLen) {pre : Option CStr} (noPrefix : pre.getD [] = [])
    (list : List NameValPair) :
    processCommaTok depth tok pre list = behind list (readAttributes ([tok].filter (· ≠ []))) := by
  unfold processCommaTok
  by_cases empty : tok = []
  · simp [empty, readAttributes, behind]
  · have single : [tok].filter (· ≠ []) = [tok] := by simp [empty]
    rw [if_neg empty, if_neg (by omega), single, readAttributes_cons]
    by_cases bad : Malformed tok
    · rw [if_pos bad, if_pos (show tok.head? = some 61 ∨ tok.head? = some 58 from bad)]
      simp [behind]
    · rw [if_neg bad, if_neg (show ¬ (tok.head? = some 61 ∨ tok.head? = some 58) from bad),
        if_neg (by rw [whole]; exact Bool.false_ne_true), processNvPair_eq empty bad fits noPrefix]
      simp [behind, readAttributes]

/-- The loop over a token that is split, with the characters of the part read so far. -/
theorem colonLoop_eq {part rest : CStr} (noColon : 58 ∉ part)
    (fits : part.length + rest.length < maxTokLen) (list : List NameValPair) :
    colonLoop (processCommaTok 0) part rest list =
      behind list (readAttributes (((part ++ rest).splitOn 58).filter (· ≠ []))) := by
  induction rest generalizing part list with
  | nil =>
    rw [List.append_nil, List.splitOn_eq_singleton noColon, colonLoop]
    exact processCommaTok_whole 0 (isColonList_of_notMem noColon) (by simpa using fits) rfl list
  | cons c rest ih =>
    rw [List.length_cons] at fits
    have whole : isColonList part = false := isColonList_of_notMem noColon
    unfold colonLoop
    split_ifs with colon
    · subst colon
      have first := processCommaTok_whole 0 whole (by omega) (rfl : (none : Option CStr).getD [] = []) list
      rw [List.splitOn_append_cons_self_of_not_mem noColon, ← List.singleton_append,
        List.filter_append, readAttributes_append]
      simp only [first, behind_fst, ih List.not_mem_nil (by simpa using (by omega : rest.length < maxTokLen)),
        List.nil_append]
      split_ifs with failed
      · rfl
      · exact (behind_behind _ _ _).symm
    · have inside : 58 ∉ part ++ [c] := by
        rw [List.mem_append, List.mem_singleton, not_or]
        exact ⟨noColon, Ne.symm colon⟩
      rw [ih inside (by rw [List.length_append, List.length_singleton]; omega), List.append_assoc]
      rfl

/-- A token that fits its buffer adds the pairs of its attributes. -/
theorem processCommaTok_eq {tok : CStr} (fits : tok.length < maxTokLen) (list : List NameValPair) :
    processCommaTok 1 tok none list = behind list (readAttributes (attributesOf tok)) := by
  unfold attributesOf
  by_cases splits : isColonList tok = true
  · have key : (lit "key=").isPrefixOf tok = true := by
      simp only [isColonList, Bool.and_eq_true] at splits
      exact splits.1.2
    obtain ⟨rest, rfl⟩ := List.isPrefixOf_iff_prefix.mp key
    have four : lit "key=" = [107, 101, 121, 61] := by decide
    rw [four] at splits fits ⊢
    unfold processCommaTok
    rw [if_neg (by simp), if_neg (by omega), if_neg (by simp), if_pos splits, if_pos splits]
    exact colonLoop_eq List.not_mem_nil (by simpa using fits) list
  · rw [if_neg splits]
    exact processCommaTok_whole 1 (Bool.eq_false_iff.mpr splits) fits rfl list

/-! ## Texts -/

/-- The tokens in front of the first one that does not fit its buffer. -/
def shortTokens (buf : CStr) : List CStr :=
  (tokens buf).takeWhile fun tok => tok.length < maxTokLen

/-- The attributes that the parser gets to, unless one of them is malformed. -/
def reachedAttributes (buf : CStr) : List CStr := (shortTokens buf).flatMap attributesOf

theorem tokens_whole {tok : CStr} (whole : ∀ c ∈ tok, ¬ Separates c) : tokens tok = [tok] :=
  List.splitOnP_eq_singleton fun c among => decide_eq_false (whole c among)

theorem tokens_append (a b : CStr) {c : UInt8} (separator : Separates c) :
    tokens (a ++ c :: b) = tokens a ++ tokens b :=
  List.splitOnP_append_cons a b (decide_eq_true separator)

/-- The first token begins with what stands in front of any separator. -/
theorem tokens_front {tok : CStr} (whole : ∀ c ∈ tok, ¬ Separates c) (rest : CStr) :
    tokens (tok ++ rest) = (tokens rest).modifyHead (tok ++ ·) := by
  induction tok with
  | nil =>
    rw [List.nil_append]
    cases tokens rest with
    | nil => rfl
    | cons => rfl
  | cons c tok ih =>
    have inside : decide (Separates c) = false := decide_eq_false (whole c List.mem_cons_self)
    have ih := ih fun d among => whole d (List.mem_cons_of_mem c among)
    unfold tokens at ih ⊢
    rw [List.cons_append, List.splitOnP_cons_eq_if_modifyHead, inside, if_neg Bool.false_ne_true, ih,
      List.modifyHead_modifyHead]
    rfl

theorem tokens_eq_cons (buf : CStr) : ∃ tok rest, tokens buf = tok :: rest :=
  List.exists_cons_of_ne_nil (List.splitOnP_ne_nil _ buf)

theorem whole_concat {tok : CStr} (whole : ∀ c ∈ tok, ¬ Separates c) {c : UInt8}
    (inside : ¬ Separates c) : ∀ d ∈ tok ++ [c], ¬ Separates d := by
  intro d among
  rcases List.mem_append.mp among with among | among
  · exact whole d among
  · rw [List.mem_singleton.mp among]
    exact inside

theorem whole_nil : ∀ c ∈ ([] : CStr), ¬ Separates c := fun c among => by cases among

/-- The loop over a text, with the characters of the token read so far. -/
theorem nvListLoop_eq {tokStr rest : CStr} (whole : ∀ c ∈ tokStr, ¬ Separates c)
    (fits : tokStr.length < maxTokLen) (list : List NameValPair) :
    nvListLoop tokStr rest list = behind list (readAttributes (reachedAttributes (tokStr ++ rest))) := by
  induction rest generalizing tokStr list with
  | nil =>
    have single : shortTokens tokStr = [tokStr] := by
      rw [shortTokens, tokens_whole whole, List.takeWhile_cons_of_pos (by simpa using fits)]
      rfl
    rw [List.append_nil, reachedAttributes, single, nvListLoop, processCommaTok_eq fits]
    simp
  | cons c rest ih =>
    unfold nvListLoop
    split_ifs with separator full
    · have first : shortTokens (tokStr ++ c :: rest) = tokStr :: shortTokens rest := by
        rw [shortTokens, tokens_append _ _ (show Separates c from separator), tokens_whole whole,
          List.singleton_append, List.takeWhile_cons_of_pos (by simpa using fits)]
        rfl
      rw [reachedAttributes, first, List.flatMap_cons, readAttributes_append]
      simp only [processCommaTok_eq fits, behind_fst, ih whole_nil (by decide), List.nil_append]
      split_ifs with failed
      · rfl
      · exact (behind_behind _ _ _).symm
    · -- the token fills its buffer
      have inside := whole_concat whole (c := c) separator
      obtain ⟨tok, others, split⟩ := tokens_eq_cons rest
      have long : ¬ ((tokStr ++ [c]) ++ tok).length < maxTokLen := by
        simp only [List.length_append, List.length_singleton]
        omega
      have none_ : shortTokens (tokStr ++ c :: rest) = [] := by
        rw [shortTokens, ← List.singleton_append, ← List.append_assoc, tokens_front inside, split,
          List.modifyHead_cons, List.takeWhile_cons_of_neg (by simpa using long)]
      rw [reachedAttributes, none_]
      simp [readAttributes, behind]
    · have inside := whole_concat whole (c := c) separator
      rw [ih inside (by rw [List.length_append, List.length_singleton]; omega), List.append_assoc]
      rfl

/-- The parser reads the attributes in front of the first token that does not fit its buffer. -/
theorem generateNvList_eq (buf : CStr) :
    generateNvList buf = readAttributes (reachedAttributes buf) := by
  rw [generateNvList, nvListLoop_eq whole_nil (by decide)]
  simp [behind]

/-! ## Texts that begin alike -/

/-- Splitting a longer text changes the last part only. -/
theorem splitOnP_append {α : Type*} (p : α → Bool) (s : List α) :
    ∃ front last, s.splitOnP p = front ++ [last] ∧
      ∀ x, (s ++ x).splitOnP p = front ++ (x.splitOnP p).modifyHead (last ++ ·) := by
  induction s with
  | nil =>
    refine ⟨[], [], rfl, fun x => ?_⟩
    cases split : x.splitOnP p with
    | nil => exact absurd split (List.splitOnP_ne_nil p x)
    | cons first rest => simp [split]
  | cons c s ih =>
    obtain ⟨front, last, whole, longer⟩ := ih
    by_cases sep : p c = true
    · refine ⟨[] :: front, last, ?_, fun x => ?_⟩
      · rw [List.splitOnP_cons_eq_if_modifyHead, if_pos sep, whole, List.cons_append]
      · rw [List.cons_append, List.splitOnP_cons_eq_if_modifyHead, if_pos sep, longer, List.cons_append]
    · cases front with
      | nil =>
        refine ⟨[], c :: last, ?_, fun x => ?_⟩
        · rw [List.splitOnP_cons_eq_if_modifyHead, if_neg sep, whole]
          rfl
        · rw [List.cons_append, List.splitOnP_cons_eq_if_modifyHead, if_neg sep, longer,
            List.nil_append, List.nil_append, List.modifyHead_modifyHead]
          rfl
      | cons first front =>
        refine ⟨(c :: first) :: front, last, ?_, fun x => ?_⟩
        · rw [List.splitOnP_cons_eq_if_modifyHead, if_neg sep, whole]
          rfl
        · rw [List.cons_append, List.splitOnP_cons_eq_if_modifyHead, if_neg sep, longer]
          rfl

/-- A longer text has the same tokens up to the last one, which may go on. -/
theorem tokens_longer (s : CStr) : ∃ front last, tokens s = front ++ [last] ∧
    ∀ x, ∃ more rest, tokens (s ++ x) = front ++ (last ++ more) :: rest := by
  obtain ⟨front, last, whole, longer⟩ := splitOnP_append (fun c => decide (Separates c)) s
  refine ⟨front, last, whole, fun x => ?_⟩
  obtain ⟨more, rest, split⟩ := tokens_eq_cons x
  refine ⟨more, rest, (longer x).trans ?_⟩
  rw [show x.splitOnP (fun c => decide (Separates c)) = more :: rest from split, List.modifyHead_cons]

theorem Malformed.append {part : CStr} (bad : Malformed part) (more : CStr) :
    Malformed (part ++ more) := by
  cases part with
  | nil => rcases bad with h | h <;> cases h
  | cons c part => exact bad

theorem Malformed.ne_nil {part : CStr} (bad : Malformed part) : part ≠ [] := by
  rintro rfl
  rcases bad with h | h <;> cases h

/-- Nothing behind a malformed attribute is read. -/
theorem Malformed.read {part : CStr} (bad : Malformed part) (parts : List CStr) :
    readAttributes ((part :: parts).filter (· ≠ [])) = (-einval, []) := by
  rw [List.filter_cons_of_pos (by simpa using bad.ne_nil), readAttributes_cons, if_pos bad]

theorem isColonList_append {tok : CStr} (splits : isColonList tok = true) (more : CStr) :
    isColonList (tok ++ more) = true := by
  simp only [isColonList, Bool.and_eq_true, decide_eq_true_eq, List.isPrefixOf_iff_prefix,
    List.contains_iff_mem] at splits ⊢
  obtain ⟨⟨long, key⟩, colon⟩ := splits
  refine ⟨⟨?_, key.trans (List.prefix_append _ _)⟩, ?_⟩
  · rw [List.length_append]
    omega
  · rw [List.drop_append_of_le_length (by omega)]
    exact List.mem_append_left _ colon

/-- A token that is split does not begin with a separator. -/
theorem not_isColonList_of_malformed {tok : CStr} (bad : Malformed tok) : isColonList tok = false := by
  rw [Bool.eq_false_iff]
  intro splits
  simp only [isColonList, Bool.and_eq_true, List.isPrefixOf_iff_prefix] at splits
  obtain ⟨rest, rfl⟩ := splits.1.2
  rcases bad with h | h <;> cases h

/-- A token with a malformed attribute is read in the same way if it goes on. -/
theorem readAttributes_goesOn {tok : CStr} (bad : ∃ part ∈ attributesOf tok, Malformed part)
    (more : CStr) : readAttributes (attributesOf (tok ++ more)) = readAttributes (attributesOf tok) := by
  by_cases splits : isColonList tok = true
  · obtain ⟨front, last, whole, longer⟩ := splitOnP_append (fun c => c == (58 : UInt8)) tok
    have longer := longer more
    rw [← List.splitOn_eq_splitOnP] at whole longer
    cases split : more.splitOnP (fun c => c == (58 : UInt8)) with
    | nil => exact absurd split (List.splitOnP_ne_nil _ more)
    | cons next rest =>
      rw [split, List.modifyHead_cons] at longer
      unfold attributesOf at bad ⊢
      rw [if_pos splits, whole] at bad ⊢
      rw [if_pos (isColonList_append splits more), longer, List.filter_append, List.filter_append,
        readAttributes_append, readAttributes_append]
      split_ifs with failed
      · rfl
      · -- the malformed part is the last one
        have lastBad : Malformed last := by
          obtain ⟨part, among, isBad⟩ := bad
          rw [List.filter_append, List.mem_append] at among
          rcases among with early | late
          · exact absurd ((readAttributes_fst _).mpr ⟨part, early, isBad⟩) failed
          · rw [List.mem_singleton.mp (List.mem_filter.mp late).1] at isBad
            exact isBad
        rw [lastBad.read, (lastBad.append next).read]
  · have single : attributesOf tok = [tok].filter (· ≠ []) := by
      rw [attributesOf, if_neg splits]
    rw [single] at bad ⊢
    obtain ⟨part, among, isBad⟩ := bad
    rw [List.mem_singleton.mp (List.mem_filter.mp among).1] at isBad
    have isBad' := isBad.append more
    rw [attributesOf, not_isColonList_of_malformed isBad', if_neg Bool.false_ne_true, isBad.read,
      isBad'.read]

theorem shortTokens_of_short {buf : CStr} (short : ∀ tok ∈ tokens buf, tok.length < maxTokLen) :
    shortTokens buf = tokens buf :=
  List.takeWhile_eq_self_iff.mpr fun tok among => decide_eq_true (short tok among)

theorem reachedAttributes_of_short {buf : CStr}
    (short : ∀ tok ∈ tokens buf, tok.length < maxTokLen) :
    reachedAttributes buf = attributes buf := by
  rw [reachedAttributes, shortTokens_of_short short, attributes]

/-- How the attributes of a text and of one that goes on are composed: those of the tokens in front of
the last one are the same, and a token that does not fit its buffer is the last that matters. -/
theorem reachedAttributes_longer (s : CStr) : ∃ last, ∀ x, ∃ more,
    reachedAttributes (s ++ x) = reachedAttributes s ∧ (∃ tok ∈ tokens s, maxTokLen ≤ tok.length) ∨
      ∃ front rest, reachedAttributes s =
          front ++ (if last.length < maxTokLen then attributesOf last else []) ∧
        reachedAttributes (s ++ x) =
          front ++ (if (last ++ more).length < maxTokLen then attributesOf (last ++ more) ++ rest
            else []) := by
  obtain ⟨front, last, whole, longer⟩ := tokens_longer s
  refine ⟨last, fun x => ?_⟩
  obtain ⟨more, rest, longer⟩ := longer x
  refine ⟨more, ?_⟩
  unfold reachedAttributes shortTokens
  rw [whole, longer]
  by_cases short : ∀ tok ∈ front, tok.length < maxTokLen
  · refine .inr ⟨front.flatMap attributesOf,
      (rest.takeWhile fun tok => tok.length < maxTokLen).flatMap attributesOf, ?_, ?_⟩
    · rw [List.takeWhile_append_of_pos fun tok among => decide_eq_true (short tok among),
        List.flatMap_append, List.takeWhile_cons]
      simp only [decide_eq_true_eq]
      split_ifs
      · rw [List.takeWhile_nil, List.flatMap_singleton]
      · rfl
    · rw [List.takeWhile_append_of_pos fun tok among => decide_eq_true (short tok among),
        List.flatMap_append, List.takeWhile_cons]
      simp only [decide_eq_true_eq]
      split_ifs
      · rw [List.flatMap_cons]
      · rfl
  · left
    push Not at short
    obtain ⟨tok, among, long⟩ := short
    refine ⟨?_, tok, List.mem_append_left _ among, long⟩
    have stops : (front.takeWhile fun tok => decide (tok.length < maxTokLen)).length ≠ front.length := by
      intro all
      have := List.takeWhile_eq_self_iff.mp ((List.takeWhile_prefix _).eq_of_length all) tok among
      simp only [decide_eq_true_eq] at this
      omega
    rw [List.takeWhile_append, List.takeWhile_append, if_neg stops, if_neg stops]

/-- If a malformed attribute ends the parser in a text and in one that goes on, it does so in the same
way. -/
theorem readAttributes_longer {s x : CStr} (bad : ∃ part ∈ reachedAttributes s, Malformed part)
    (bad' : ∃ part ∈ reachedAttributes (s ++ x), Malformed part) :
    readAttributes (reachedAttributes (s ++ x)) = readAttributes (reachedAttributes s) := by
  obtain ⟨last, composed⟩ := reachedAttributes_longer s
  obtain ⟨more, ⟨same, -⟩ | ⟨front, rest, reads, reads'⟩⟩ := composed x
  · rw [same]
  · rw [← readAttributes_fst, reads, readAttributes_append] at bad
    rw [← readAttributes_fst, reads', readAttributes_append] at bad'
    rw [reads, reads', readAttributes_append, readAttributes_append]
    by_cases early : (readAttributes front).1 ≠ 0
    · rw [if_pos early, if_pos early]
    · rw [if_neg early, behind_fst] at bad bad'
      rw [if_neg early, if_neg early]
      -- the malformed attribute belongs to the last token, which still fits its buffer
      have fits : last.length < maxTokLen := by
        by_contra long
        rw [if_neg long] at bad
        exact bad rfl
      have fits' : (last ++ more).length < maxTokLen := by
        by_contra long
        rw [if_neg long] at bad'
        exact bad' rfl
      rw [if_pos fits] at bad
      have goesOn := readAttributes_goesOn ((readAttributes_fst _).mp bad) more
      rw [if_pos fits, if_pos fits', readAttributes_append, goesOn, if_pos bad]

theorem short_longer {s x : CStr} (short : ∀ tok ∈ tokens (s ++ x), tok.length < maxTokLen) :
    ∀ tok ∈ tokens s, tok.length < maxTokLen := by
  obtain ⟨front, last, whole, longer⟩ := tokens_longer s
  obtain ⟨more, rest, longer⟩ := longer x
  rw [longer] at short
  rw [whole]
  intro tok among
  rcases List.mem_append.mp among with early | late
  · exact short tok (List.mem_append_left _ early)
  · have bound := short (last ++ more) (by simp)
    rw [List.length_append] at bound
    rw [List.mem_singleton.mp late]
    omega

/-- A malformed attribute stays one when the text goes on. -/
theorem malformed_longer {s : CStr} (bad : ∃ part ∈ attributes s, Malformed part) (x : CStr) :
    ∃ part ∈ attributes (s ++ x), Malformed part := by
  obtain ⟨front, last, whole, longer⟩ := tokens_longer s
  obtain ⟨more, rest, longer⟩ := longer x
  obtain ⟨part, among, isBad⟩ := bad
  rw [attributes, whole, List.flatMap_append, List.flatMap_singleton, List.mem_append] at among
  rw [attributes, longer, List.flatMap_append, List.flatMap_cons]
  rcases among with early | late
  · exact ⟨part, List.mem_append_left _ early, isBad⟩
  · have goesOn := readAttributes_goesOn ⟨part, late, isBad⟩ more
    have stays := (readAttributes_fst _).mpr ⟨part, late, isBad⟩
    rw [← goesOn] at stays
    obtain ⟨part', among', isBad'⟩ := (readAttributes_fst _).mp stays
    exact ⟨part', List.mem_append_right _ (List.mem_append_left _ among'), isBad'⟩

theorem attributesOf_ne_nil {tok : CStr} (some_ : tok ≠ []) : attributesOf tok ≠ [] := by
  unfold attributesOf
  split_ifs with splits
  · -- the first part is the key
    have key : (lit "key=").isPrefixOf tok = true := by
      simp only [isColonList, Bool.and_eq_true] at splits
      exact splits.1.2
    obtain ⟨rest, rfl⟩ := List.isPrefixOf_iff_prefix.mp key
    have four : lit "key=" = [107, 101, 121, 61] := by decide
    obtain ⟨first, parts, split⟩ := List.exists_cons_of_ne_nil (List.splitOn_ne_nil 58 rest)
    have whole : (lit "key=" ++ rest).splitOn 58 = (lit "key=" ++ first) :: parts := by
      rw [four]
      simp [List.splitOn_cons_eq_if_modifyHead, split]
    rw [whole, List.filter_cons_of_pos (by simp [four])]
    exact List.cons_ne_nil _ _
  · simp [some_]

/-- What stands behind a token that does not fit its buffer is missing. -/
theorem length_reachedAttributes_lt {s : CStr} (long : ∃ tok ∈ tokens s, maxTokLen ≤ tok.length)
    (x : CStr) : (reachedAttributes s).length < (attributes (s ++ x)).length := by
  obtain ⟨front, last, whole, goesOn⟩ := tokens_longer s
  obtain ⟨more, rest, longer⟩ := goesOn x
  have some_ : ∀ {tok : CStr}, maxTokLen ≤ tok.length → 0 < (attributesOf tok).length := by
    intro tok isLong
    refine List.length_pos_iff.mpr (attributesOf_ne_nil fun empty => ?_)
    rw [empty] at isLong
    exact absurd isLong (by decide)
  rw [reachedAttributes, shortTokens, attributes, longer, whole]
  rw [whole] at long
  clear whole longer goesOn
  induction front with
  | nil =>
    obtain ⟨tok, among, isLong⟩ := long
    obtain rfl := List.mem_singleton.mp among
    have isLong' : maxTokLen ≤ (tok ++ more).length := by
      rw [List.length_append]
      omega
    have pos := some_ isLong'
    rw [List.nil_append, List.nil_append, List.takeWhile_cons_of_neg (by simpa using isLong),
      List.flatMap_cons, List.length_append]
    exact Nat.lt_add_right _ pos
  | cons tok front ih =>
    by_cases isLong : maxTokLen ≤ tok.length
    · have pos := some_ isLong
      rw [List.cons_append, List.cons_append, List.takeWhile_cons_of_neg (by simpa using isLong),
        List.flatMap_cons, List.length_append]
      exact Nat.lt_add_right _ pos
    · have later : ∃ u ∈ front ++ [last], maxTokLen ≤ u.length := by
        obtain ⟨u, among, isLong'⟩ := long
        rcases List.mem_cons.mp among with rfl | among
        · exact absurd isLong' isLong
        · exact ⟨u, among, isLong'⟩
      rw [List.cons_append, List.cons_append, List.takeWhile_cons_of_pos (by simpa using isLong),
        List.flatMap_cons, List.flatMap_cons, List.length_append, List.length_append]
      exact Nat.add_lt_add_left (ih later) _

/-! ## Options that are read completely -/

/-- A pair stands for an attribute: name and value are what the attribute is written with. -/
def StandsFor (e : NameValPair) (part : CStr) : Prop :=
  match e.value with
  | none => part = e.name ∨ part = e.name ++ [61]
  | some value => part = e.name ++ 61 :: value

/-- Whenever the options are accepted, the pairs represent all their attributes, in order. -/
def ParsesCompletely (buf : CStr) : Prop :=
  (parseOptionsInt (some buf)).1 = 0 →
    List.Forall₂ StandsFor (parseOptionsInt (some buf)).2 (attributes buf)

theorem standsFor_attributePair (part : CStr) : StandsFor (attributePair part) part := by
  unfold attributePair
  split_ifs with isPair
  · obtain ⟨front, back, rfl, noEq⟩ := exists_last isPair
    rw [readPair_last noEq, StandsFor, valueOf]
    split_ifs with empty
    · rw [empty]
      exact .inr rfl
    · rfl
  · exact .inl rfl

/-- When the parser reads all attributes of a text, or fails, on the part of it that it sees. -/
theorem complete_iff {buf s x : CStr} (whole : buf = s ++ x) :
    ((generateNvList s).1 = 0 → List.Forall₂ StandsFor (generateNvList s).2 (attributes buf)) ↔
      (∃ part ∈ reachedAttributes s, Malformed part) ∨
        (∀ tok ∈ tokens s, tok.length < maxTokLen) ∧
          List.Forall₂ (fun part => StandsFor (attributePair part)) (attributes s) (attributes buf) := by
  rw [generateNvList_eq]
  by_cases bad : ∃ part ∈ reachedAttributes s, Malformed part
  · have failed := (readAttributes_fst _).mpr bad
    exact iff_of_true (fun zero => absurd zero failed) (.inl bad)
  · have read := readAttributes_of_wellFormed fun part among isBad => bad ⟨part, among, isBad⟩
    rw [read, List.forall₂_map_left_iff]
    simp only [bad, false_or, forall_const]
    constructor
    · intro complete
      have short : ∀ tok ∈ tokens s, tok.length < maxTokLen := by
        by_contra long
        push Not at long
        have less := length_reachedAttributes_lt long x
        rw [← whole, complete.length_eq] at less
        exact lt_irrefl _ less
      rw [reachedAttributes_of_short short] at complete
      exact ⟨short, complete⟩
    · rintro ⟨short, complete⟩
      rwa [reachedAttributes_of_short short]

/-- **Which options are represented completely when they are accepted.**  Those with a malformed
attribute in front of the first token of 128 or more characters, which are refused, and those without
such a token, as long as the length of the text is one of an `int` (or all that is cut off adds no
attribute). -/
theorem parsesCompletely_iff (buf : CStr) : ParsesCompletely buf ↔
    (∃ part ∈ reachedAttributes (seenText buf), Malformed part) ∨
      (∀ tok ∈ tokens (seenText buf), tok.length < maxTokLen) ∧
        List.Forall₂ (fun part => StandsFor (attributePair part)) (attributes (seenText buf))
          (attributes buf) := by
  obtain ⟨x, whole⟩ := seenText_append buf
  exact complete_iff whole

/-- A text shorter than 2^31 characters is seen whole. -/
theorem parsesCompletely_of_lt {buf : CStr} (fits : buf.length < 2 ^ 31) : ParsesCompletely buf ↔
    (∃ part ∈ reachedAttributes buf, Malformed part) ∨ ∀ tok ∈ tokens buf, tok.length < maxTokLen := by
  have represented : List.Forall₂ (fun part => StandsFor (attributePair part)) (attributes buf)
      (attributes buf) := List.forall₂_same.mpr fun part _ => standsFor_attributePair part
  have complete := complete_iff (List.append_nil buf).symm
  rw [← generateNvListInt_of_lt fits] at complete
  refine complete.trans ?_
  simp only [represented, and_true]

/-- An option of 128 characters, with another one behind it. -/
def longOption : CStr := List.replicate 128 97 ++ lit ",ecryptfs_unlink_sigs"

theorem parsesCompletely_fails :
    parseOptionsInt (some longOption) = (0, []) ∧ ¬ ParsesCompletely longOption := by
  have parsed : parseOptionsInt (some longOption) = (0, []) := by
    have fits : longOption.length < 2 ^ 31 := by decide +kernel
    have read : generateNvList longOption = (0, []) := by decide +kernel
    exact (generateNvListInt_of_lt fits).trans read
  refine ⟨parsed, fun complete => ?_⟩
  have none_ := complete (congrArg Prod.fst parsed)
  rw [parsed] at none_
  have counted := none_.length_eq
  have some_ : (attributes longOption).length = 2 := by decide +kernel
  rw [some_] at counted
  cases counted

end Ecryptfs
