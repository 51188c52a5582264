import Ecryptfs.Options.Lengths
import Ecryptfs.Lib.Separated

/-!
# The options as a concatenation

A text whose tokens fit their buffer is read like its tokens one by one, and up to the first malformed
attribute (`readsByTokens_iff`).  The writes to the buffers of the parser are recorded; they all stay inside
(`nvListWrites_inside`).  A text of 2^31 characters is longer than an `int` can tell: the loop over it
does not begin.
-/

namespace Ecryptfs

/-! ## Writes to the buffers -/

/-- The buffers of `generate_nv_list` and `process_comma_tok`, of `maxTokLen` bytes each. -/
inductive TokenBuffer where
  | tokStr
  | newPrefix
  | subToken
  deriving DecidableEq

/-- A write of one byte: the buffer and the index. -/
abbrev BufferWrite := TokenBuffer × ℕ

/-- What `snprintf` writes for a pair: the characters that fit, and the NUL. -/
def nvPairWrites (tok : CStr) (pre : Option CStr) : List BufferWrite :=
  (List.range (min (pre.getD [] ++ tok).length (maxTokLen - 1) + 1)).map fun i => (.subToken, i)

/-- The writes of the loop at the label `process_colon_list`. -/
def colonWrites (self : CStr → Option CStr → List NameValPair → ℤ × List NameValPair)
    (selfWrites : CStr → Option CStr → List NameValPair → List BufferWrite) (subToken : CStr) :
    CStr → List NameValPair → List BufferWrite
  | [], list => (.subToken, subToken.length) :: selfWrites subToken (some []) list
  | c :: rest, list =>
    (.subToken, subToken.length) ::
      if c = 58 then
        let result := self subToken none list
        selfWrites subToken none list ++
          if result.1 ≠ 0 then [] else colonWrites self selfWrites [] rest result.2
      else colonWrites self selfWrites (subToken ++ [c]) rest list

/-- The writes of `process_comma_tok`. -/
def commaTokWrites : ℕ → CStr → Option CStr → List NameValPair → List BufferWrite
  | depth, tok, pre, list =>
    if tok = [] then []
    else if tok.length > maxTokLen then []
    else if tok.head? = some 61 ∨ tok.head? = some 58 then []
    else if isColonList tok then
      (.newPrefix, 0) ::
        match depth with
        | 0 => []
        | depth + 1 => colonWrites (processCommaTok depth) (commaTokWrites depth) [] tok list
    else nvPairWrites tok pre

/-- The writes of the loop of `generate_nv_list`. -/
def nvListWrites (tokStr : CStr) : CStr → List NameValPair → List BufferWrite
  | [], list => (.tokStr, tokStr.length) :: commaTokWrites 1 tokStr none list
  | c :: rest, list =>
    (.tokStr, tokStr.length) ::
      if c = 44 ∨ c = 10 then
        let result := processCommaTok 1 tokStr none list
        commaTokWrites 1 tokStr none list ++
          if result.1 ≠ 0 then [] else nvListWrites [] rest result.2
      else if tokStr.length + 1 = maxTokLen then []
      else nvListWrites (tokStr ++ [c]) rest list

/-- All writes are to bytes of the buffers. -/
def StaysInside (writes : List BufferWrite) : Prop := ∀ w ∈ writes, w.2 < maxTokLen

theorem inside_nil : StaysInside [] := fun w among => by cases among

theorem StaysInside.cons {w : BufferWrite} {writes : List BufferWrite} (first : w.2 < maxTokLen)
    (rest : StaysInside writes) : StaysInside (w :: writes) := by
  intro v among
  rcases List.mem_cons.mp among with rfl | among
  · exact first
  · exact rest v among

theorem StaysInside.append {writes writes' : List BufferWrite} (first : StaysInside writes)
    (rest : StaysInside writes') : StaysInside (writes ++ writes') := by
  intro w among
  rcases List.mem_append.mp among with among | among
  · exact first w among
  · exact rest w among

theorem nvPairWrites_inside (tok : CStr) (pre : Option CStr) : StaysInside (nvPairWrites tok pre) := by
  intro w among
  obtain ⟨i, bound, rfl⟩ := List.mem_map.mp among
  rw [List.mem_range] at bound
  have size : maxTokLen = 127 + 1 := rfl
  dsimp only
  omega

/-- The parts of a token that fits its buffer fit theirs. -/
theorem colonWrites_inside
    {self : CStr → Option CStr → List NameValPair → ℤ × List NameValPair}
    {selfWrites : CStr → Option CStr → List NameValPair → List BufferWrite}
    (inner : ∀ tok pre list, StaysInside (selfWrites tok pre list)) {subToken rest : CStr}
    (fits : subToken.length + rest.length < maxTokLen) (list : List NameValPair) :
    StaysInside (colonWrites self selfWrites subToken rest list) := by
  induction rest generalizing subToken list with
  | nil => exact .cons (by simpa using fits) (inner subToken (some []) list)
  | cons c rest ih =>
    rw [List.length_cons] at fits
    unfold colonWrites
    refine .cons (by dsimp only; omega) ?_
    by_cases colon : c = 58
    · rw [if_pos colon]
      refine (inner subToken none list).append ?_
      split_ifs
      · exact inside_nil
      · exact ih (by rw [List.length_nil]; omega) _
    · rw [if_neg colon]
      exact ih (by rw [List.length_append, List.length_singleton]; omega) list

/-- A token that fits its buffer is written to buffers that it fits. -/
theorem commaTokWrites_inside {tok : CStr} (fits : tok.length < maxTokLen) (pre : Option CStr)
    (list : List NameValPair) : StaysInside (commaTokWrites 1 tok pre list) := by
  have whole : ∀ (tok : CStr) (pre : Option CStr) (list : List NameValPair),
      StaysInside (commaTokWrites 0 tok pre list) := by
    intro tok pre list
    unfold commaTokWrites
    split_ifs
    · exact inside_nil
    · exact inside_nil
    · exact inside_nil
    · exact .cons (by decide) inside_nil
    · exact nvPairWrites_inside tok pre
  unfold commaTokWrites
  split_ifs
  · exact inside_nil
  · exact inside_nil
  · exact inside_nil
  · exact .cons (by decide) (colonWrites_inside whole (by simpa using fits) list)
  · exact nvPairWrites_inside tok pre

/-- No text makes the parser write outside of its buffers. -/
theorem nvListWrites_inside {tokStr : CStr} (fits : tokStr.length < maxTokLen) (rest : CStr)
    (list : List NameValPair) : StaysInside (nvListWrites tokStr rest list) := by
  induction rest generalizing tokStr list with
  | nil => exact .cons fits (commaTokWrites_inside fits none list)
  | cons c rest ih =>
    unfold nvListWrites
    refine .cons fits ?_
    by_cases separator : c = 44 ∨ c = 10
    · rw [if_pos separator]
      refine (commaTokWrites_inside fits none list).append ?_
      split_ifs
      · exact inside_nil
      · exact ih (by decide) _
    · rw [if_neg separator]
      split_ifs with full
      · exact inside_nil
      · exact ih (by rw [List.length_append, List.length_singleton]; omega) list

/-! ## One token after the other -/

/-- The pairs that the attributes of a text stand for. -/
def pairsOf (buf : CStr) : List NameValPair := (attributes buf).map attributePair

/-- What the parser makes of a text whose tokens fit their buffer: if no attribute is malformed, the
lists of its tokens one after the other, and so of two texts with a separator between them; and else
the error, with the pairs in front of the first malformed attribute.  It writes to its buffers only. -/
structure ReadsByTokens (buf : CStr) : Prop where
  wellFormed : (∀ part ∈ attributes buf, ¬ Malformed part) → generateNvListInt buf =
    (0, ((tokens buf).filter (· ≠ [])).flatMap fun tok => (generateNvListInt tok).2)
  join : (∀ part ∈ attributes buf, ¬ Malformed part) →
    ∀ a c b, buf = a ++ c :: b → Separates c →
      generateNvListInt buf = (0, (generateNvListInt a).2 ++ (generateNvListInt b).2)
  malformed : (∃ part ∈ attributes buf, Malformed part) → generateNvListInt buf =
    (-einval, ((attributes buf).takeWhile fun part => ¬ Malformed part).map attributePair)
  inside : StaysInside (nvListWrites [] (seenText buf) [])

/-- The tokens contain no separators. -/
theorem whole_of_mem_tokens {buf tok : CStr} (among : tok ∈ tokens buf) :
    ∀ c ∈ tok, ¬ Separates c := fun c inside =>
  of_decide_eq_false (Separated.eq_false_of_mem_splitOnP among c inside)

theorem attributes_token {tok : CStr} (whole : ∀ c ∈ tok, ¬ Separates c) :
    attributes tok = attributesOf tok := by
  rw [attributes, tokens_whole whole, List.flatMap_singleton]

theorem wellFormed_seenText {buf : CStr} (wellFormed : ∀ part ∈ attributes buf, ¬ Malformed part) :
    ∀ part ∈ attributes (seenText buf), ¬ Malformed part := by
  intro part among bad
  obtain ⟨x, whole⟩ := seenText_append buf
  have bad := malformed_longer ⟨part, among, bad⟩ x
  rw [← whole] at bad
  obtain ⟨part', among', bad'⟩ := bad
  exact wellFormed part' among' bad'

section

variable {buf : CStr} (short : ∀ tok ∈ tokens buf, tok.length < maxTokLen)

include short

theorem short_seenText : ∀ tok ∈ tokens (seenText buf), tok.length < maxTokLen := by
  obtain ⟨x, whole⟩ := seenText_append buf
  rw [whole] at short
  exact short_longer short

theorem generateNvListInt_eq :
    generateNvListInt buf = readAttributes (attributes (seenText buf)) := by
  rw [generateNvListInt, generateNvList_eq, reachedAttributes_of_short (short_seenText short)]

/-- A text without malformed attributes adds the pairs of what is seen of it. -/
theorem generateNvListInt_wellFormed (wellFormed : ∀ part ∈ attributes buf, ¬ Malformed part) :
    generateNvListInt buf = (0, pairsOf (seenText buf)) := by
  rw [generateNvListInt_eq short, readAttributes_of_wellFormed (wellFormed_seenText wellFormed),
    pairsOf]

/-- A malformed attribute that is seen ends the parser as in the whole text. -/
theorem generateNvListInt_malformed (bad : ∃ part ∈ attributes (seenText buf), Malformed part) :
    (∃ part ∈ attributes buf, Malformed part) ∧
      generateNvListInt buf = readAttributes (attributes buf) := by
  have shortSeen := short_seenText short
  rw [generateNvListInt_eq short]
  obtain ⟨x, whole⟩ := seenText_append buf
  generalize seenText buf = s at bad shortSeen whole ⊢
  subst whole
  refine ⟨malformed_longer bad x, ?_⟩
  have same := readAttributes_longer (s := s) (x := x)
  rw [reachedAttributes_of_short shortSeen, reachedAttributes_of_short short] at same
  exact (same bad (malformed_longer bad x)).symm

/-- A token adds the pairs of its attributes. -/
theorem generateNvListInt_token (wellFormed : ∀ part ∈ attributes buf, ¬ Malformed part) {tok : CStr}
    (among : tok ∈ tokens buf) :
    (generateNvListInt tok).2 = (attributesOf tok).map attributePair := by
  have whole := whole_of_mem_tokens among
  have fits := short tok among
  have size : maxTokLen < 2 ^ 31 := by norm_num [maxTokLen]
  have alone : ∀ u ∈ tokens tok, u.length < maxTokLen := by
    rw [tokens_whole whole, List.forall_mem_singleton]
    exact fits
  have good : ∀ part ∈ attributes tok, ¬ Malformed part := by
    rw [attributes_token whole]
    exact fun part inside => wellFormed part (List.mem_flatMap.mpr ⟨tok, among, inside⟩)
  rw [generateNvListInt_wellFormed alone good, seenText_of_lt (fits.trans size), pairsOf,
    attributes_token whole]

/-- The lists of the tokens, one after the other, are the pairs of the text. -/
theorem tokenLists_eq (wellFormed : ∀ part ∈ attributes buf, ¬ Malformed part) :
    (((tokens buf).filter (· ≠ [])).flatMap fun tok => (generateNvListInt tok).2) = pairsOf buf := by
  have single : ∀ toks : List CStr, (∀ tok ∈ toks,
      (generateNvListInt tok).2 = (attributesOf tok).map attributePair) →
      ((toks.filter (· ≠ [])).flatMap fun tok => (generateNvListInt tok).2) =
        toks.flatMap fun tok => (attributesOf tok).map attributePair := by
    intro toks each
    induction toks with
    | nil => rw [List.filter_nil, List.flatMap_nil, List.flatMap_nil]
    | cons tok rest ih =>
      have ih := ih fun u among => each u (List.mem_cons_of_mem tok among)
      rw [List.flatMap_cons]
      by_cases empty : tok = []
      · have adds : attributesOf ([] : CStr) = [] := rfl
        rw [List.filter_cons_of_neg (by simpa using empty), ih, empty, adds, List.map_nil,
          List.nil_append]
      · rw [List.filter_cons_of_pos (by simpa using empty), List.flatMap_cons, ih,
          each tok List.mem_cons_self]
  rw [single _ fun tok => generateNvListInt_token short wellFormed, pairsOf, attributes,
    List.map_flatMap]

theorem short_append {a b : CStr} {c : UInt8} (here : buf = a ++ c :: b) (separator : Separates c) :
    (∀ tok ∈ tokens a, tok.length < maxTokLen) ∧ ∀ tok ∈ tokens b, tok.length < maxTokLen := by
  rw [here, tokens_append a b separator] at short
  exact List.forall_mem_append.mp short

end

/-- The lists of two texts with a separator between them. -/
theorem join_eq {buf a b : CStr} {c : UInt8} (short : ∀ tok ∈ tokens buf, tok.length < maxTokLen)
    (wellFormed : ∀ part ∈ attributes buf, ¬ Malformed part) (here : buf = a ++ c :: b)
    (separator : Separates c) : (generateNvListInt a).2 ++ (generateNvListInt b).2 =
      pairsOf (seenText a) ++ pairsOf (seenText b) := by
  obtain ⟨shortA, shortB⟩ := short_append short here separator
  rw [here, attributes_append a b separator, List.forall_mem_append] at wellFormed
  rw [generateNvListInt_wellFormed shortA wellFormed.1, generateNvListInt_wellFormed shortB wellFormed.2]

/-- A text shorter than 2^31 characters has the pairs of its two sides. -/
theorem pairsOf_sides {buf a b : CStr} {c : UInt8} (fits : buf.length < 2 ^ 31)
    (here : buf = a ++ c :: b) (separator : Separates c) :
    pairsOf (seenText a) ++ pairsOf (seenText b) = pairsOf buf := by
  have size := congrArg List.length here
  rw [List.length_append, List.length_cons] at size
  rw [seenText_of_lt (by omega), seenText_of_lt (by omega), here, pairsOf, pairsOf, pairsOf,
    attributes_append a b separator, List.map_append]

section

variable {buf : CStr} (short : ∀ tok ∈ tokens buf, tok.length < maxTokLen)

include short

/-- A malformed attribute that is seen is where the text ends. -/
theorem readsByTokens_of_malformed (bad : ∃ part ∈ attributes (seenText buf), Malformed part) :
    ReadsByTokens buf := by
  obtain ⟨⟨part, among, isBad⟩, read⟩ := generateNvListInt_malformed short bad
  refine ⟨fun wellFormed => ?_, fun wellFormed => ?_, fun _ => ?_,
    nvListWrites_inside (by decide) _ _⟩
  · exact absurd isBad (wellFormed part among)
  · exact absurd isBad (wellFormed part among)
  · rw [read, readAttributes, if_pos ⟨part, among, isBad⟩]

theorem readsByTokens_of_wellFormed (wellFormed : ∀ part ∈ attributes buf, ¬ Malformed part)
    (whole : pairsOf (seenText buf) = pairsOf buf)
    (sides : ∀ a c b, buf = a ++ c :: b → Separates c →
      pairsOf (seenText a) ++ pairsOf (seenText b) = pairsOf buf) : ReadsByTokens buf := by
  have read := generateNvListInt_wellFormed short wellFormed
  refine ⟨fun _ => ?_, fun _ a c b here separator => ?_, fun ⟨part, among, isBad⟩ => ?_,
    nvListWrites_inside (by decide) _ _⟩
  · rw [tokenLists_eq short wellFormed, read, whole]
  · rw [join_eq short wellFormed here separator, sides a c b here separator, read, whole]
  · exact absurd isBad (wellFormed part among)

/-- Every text shorter than 2^31 characters is read token by token. -/
theorem readsByTokens_of_lt (fits : buf.length < 2 ^ 31) : ReadsByTokens buf := by
  have seen := seenText_of_lt fits
  by_cases bad : ∃ part ∈ attributes buf, Malformed part
  · exact readsByTokens_of_malformed short (by rwa [seen])
  · refine readsByTokens_of_wellFormed short (fun part among isBad => bad ⟨part, among, isBad⟩)
      (by rw [seen]) fun a c b here separator => pairsOf_sides fits here separator

end

/-- A text without attributes has the pairs of its two sides, which are none. -/
theorem pairsOf_of_nil {buf : CStr} (none_ : attributes buf = []) :
    pairsOf (seenText buf) = pairsOf buf ∧ ∀ a c b, buf = a ++ c :: b → Separates c →
      pairsOf (seenText a) ++ pairsOf (seenText b) = pairsOf buf := by
  have unseen : ∀ {s : CStr}, attributes s = [] → attributes (seenText s) = [] := by
    intro s none_
    have fewer := length_attributes_seenText s
    rw [none_] at fewer
    exact List.length_eq_zero_iff.mp (Nat.le_zero.mp fewer)
  constructor
  · rw [pairsOf, pairsOf, unseen none_, none_]
  · intro a c b here separator
    rw [here, attributes_append a b separator, List.append_eq_nil_iff] at none_
    rw [here, pairsOf, pairsOf, pairsOf, attributes_append a b separator, unseen none_.1, unseen none_.2,
      none_.1, none_.2]
    rfl

/-- **When a text is read token by token.**  As far as its tokens fit their buffer, it is if and only if what
is seen of it has a malformed attribute, or nothing in it is malformed and it has fewer than 2^31 characters
or no attribute. -/
theorem readsByTokens_iff (buf : CStr) (short : ∀ tok ∈ tokens buf, tok.length < maxTokLen) :
    ReadsByTokens buf ↔ (∃ part ∈ attributes (seenText buf), Malformed part) ∨
      (∀ part ∈ attributes buf, ¬ Malformed part) ∧ (buf.length < 2 ^ 31 ∨ attributes buf = []) := by
  constructor
  · intro reads
    by_cases bad : ∃ part ∈ attributes (seenText buf), Malformed part
    · exact .inl bad
    · have read := generateNvListInt_eq short
      rw [readAttributes_of_wellFormed fun part among isBad => bad ⟨part, among, isBad⟩, ← pairsOf]
        at read
      have wellFormed : ∀ part ∈ attributes buf, ¬ Malformed part := by
        intro part among isBad
        have failed := reads.malformed ⟨part, among, isBad⟩
        rw [read, Prod.mk.injEq] at failed
        exact absurd failed.1 (by simp [einval])
      refine .inr ⟨wellFormed, ?_⟩
      by_contra neither
      rw [not_or, not_lt] at neither
      have whole := reads.wellFormed wellFormed
      rw [tokenLists_eq short wellFormed, read, Prod.mk.injEq] at whole
      have sizes := congrArg List.length whole.2
      rw [pairsOf, pairsOf, List.length_map, List.length_map] at sizes
      rcases attributes_lost short neither.1 neither.2 with fewer | ⟨a, c, b, here, separator, fewer⟩
      · omega
      · have joined := reads.join wellFormed a c b here separator
        rw [join_eq short wellFormed here separator, read, whole.2, Prod.mk.injEq] at joined
        have sides := congrArg List.length joined.2
        rw [pairsOf, pairsOf, pairsOf, List.length_append, List.length_map, List.length_map,
          List.length_map] at sides
        omega
  · rintro (bad | ⟨wellFormed, fits | none_⟩)
    · exact readsByTokens_of_malformed short bad
    · exact readsByTokens_of_lt short fits
    · obtain ⟨whole, sides⟩ := pairsOf_of_nil none_
      exact readsByTokens_of_wellFormed short wellFormed whole sides

/-- A plain option and a key with attributes. -/
def plainAndKey : CStr := lit "a=1,key=x:b=2"

theorem readsByTokens_plainAndKey : ReadsByTokens plainAndKey := by
  have fits : plainAndKey.length < 2 ^ 31 := by norm_num [show plainAndKey.length = 13 from rfl]
  exact (readsByTokens_iff plainAndKey (by decide)).mpr (.inr ⟨by decide, .inl fits⟩)

/-! ## A text that is not seen -/

/-- An option with `n` commas behind it. -/
def trailedOption (n : ℕ) : CStr := 97 :: List.replicate n 44

theorem tokens_replicate (n : ℕ) : tokens (List.replicate n 44) = List.replicate (n + 1) [] := by
  induction n with
  | zero => rfl
  | succ n ih =>
    rw [List.replicate_succ, ← List.nil_append (44 :: _), tokens_append _ _ (.inl rfl), ih,
      tokens_whole whole_nil]
    rfl

theorem tokens_trailedOption (n : ℕ) : ∀ tok ∈ tokens (trailedOption n), tok = [97] ∨ tok = [] := by
  intro tok among
  have alone : ∀ c ∈ ([97] : CStr), ¬ Separates c := List.forall_mem_singleton.mpr (by decide)
  rw [trailedOption, ← List.singleton_append, tokens_front alone, tokens_replicate,
    List.replicate_succ, List.modifyHead_cons] at among
  rcases List.mem_cons.mp among with first | later
  · exact .inl first
  · exact .inr (List.eq_of_mem_replicate later)

theorem attributes_trailedOption (n : ℕ) : attributes (trailedOption n) = [[97]] := by
  have alone : ∀ c ∈ ([97] : CStr), ¬ Separates c := List.forall_mem_singleton.mpr (by decide)
  have none_ : (List.replicate n ([] : CStr)).flatMap attributesOf = [] :=
    List.flatMap_eq_nil_iff.mpr fun tok among => by rw [List.eq_of_mem_replicate among]; rfl
  rw [attributes, trailedOption, ← List.singleton_append, tokens_front alone, tokens_replicate,
    List.replicate_succ, List.modifyHead_cons, List.flatMap_cons, none_]
  rfl

/-- A text of 2^31 characters has a negative length. -/
theorem seenText_of_eq {buf : CStr} (size : buf.length = 2 ^ 31) : seenText buf = [] := by
  rw [seenText, size]
  rfl

theorem not_readsByTokens {n : ℕ} (size : n + 1 = 2 ^ 31) : ¬ ReadsByTokens (trailedOption n) := by
  intro reads
  have unseen : seenText (trailedOption n) = [] := by
    refine seenText_of_eq ?_
    rw [trailedOption, List.length_cons, List.length_replicate, size]
  have good : ∀ part ∈ attributes (trailedOption n), ¬ Malformed part := by
    rw [attributes_trailedOption]
    decide
  have short : ∀ tok ∈ tokens (trailedOption n), tok.length < maxTokLen := by
    intro tok among
    rcases tokens_trailedOption n tok among with rfl | rfl
    · decide
    · decide
  have whole := reads.wellFormed good
  rw [tokenLists_eq short good, generateNvListInt_wellFormed short good, unseen, pairsOf, pairsOf,
    attributes_trailedOption] at whole
  exact absurd whole (by decide)

/-- An option with 2^31 - 1 commas behind it is lost. -/
theorem readsByTokens_fails :
    (∀ tok ∈ tokens (trailedOption (2 ^ 31 - 1)), tok.length < maxTokLen) ∧
      ¬ ReadsByTokens (trailedOption (2 ^ 31 - 1)) := by
  refine ⟨fun tok among => ?_, not_readsByTokens (Nat.sub_add_cancel Nat.one_le_two_pow)⟩
  rcases tokens_trailedOption _ tok among with rfl | rfl
  · decide
  · decide

end Ecryptfs
