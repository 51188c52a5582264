import Ecryptfs.Options.Tokens

/-!
# Texts that are too long

The length of a text is kept in an `int`, so that of 2^31 characters and more at least 2^31 are not looked
at.  As no token fills its buffer, there is a separator among any 128 characters, and the texts can be
divided where the lengths of their parts go wrong (`divided_below` and `divided_above`): what is lost has
attributes as soon as the text has any.  `parseOptions_iff` says which options of the grammar are read back.
-/

namespace Ecryptfs

/-! ## What is seen -/

theorem seenText_of_upper {buf : CStr} (upper : 2 ^ 31 ≤ buf.length % 2 ^ 32) : seenText buf = [] := by
  have negative : (Int.bmod buf.length (2 ^ 32)).toNat = 0 := by
    rw [Int.bmod_def]
    split_ifs with below <;> omega
  rw [seenText, negative, List.take_zero]

/-- Of a long text at least 2^31 characters are not seen. -/
theorem length_seenText {buf : CStr} (long : 2 ^ 31 ≤ buf.length) :
    (seenText buf).length + 2 ^ 31 ≤ buf.length := by
  rw [seenText, List.length_take, Int.bmod_def]
  split_ifs with below <;> omega

/-! ## Attributes of longer texts -/

/-- A token that goes on has no fewer attributes. -/
theorem length_attributesOf_le (tok more : CStr) :
    (attributesOf tok).length ≤ (attributesOf (tok ++ more)).length := by
  by_cases splits : isColonList tok = true
  · obtain ⟨front, last, whole, longer⟩ := splitOnP_append (fun c => c == (58 : UInt8)) tok
    have longer := longer more
    rw [← List.splitOn_eq_splitOnP] at whole longer
    obtain ⟨next, rest, split⟩ := List.exists_cons_of_ne_nil (List.splitOnP_ne_nil (fun c => c == (58 : UInt8)) more)
    rw [split, List.modifyHead_cons] at longer
    unfold attributesOf
    rw [if_pos splits, if_pos (isColonList_append splits more), whole, longer, List.filter_append,
      List.filter_append, List.length_append, List.length_append]
    refine Nat.add_le_add_left ?_ _
    by_cases empty : last = []
    · rw [empty]
      exact Nat.zero_le _
    · rw [List.filter_cons_of_pos (by simpa using empty), List.filter_cons_of_pos (by simp [empty])]
      exact Nat.succ_le_succ (Nat.zero_le _)
  · have single : attributesOf tok = [tok].filter (· ≠ []) := by rw [attributesOf, if_neg splits]
    by_cases empty : tok = []
    · rw [single, empty]
      exact Nat.zero_le _
    · have some_ : tok ++ more ≠ [] := by simp [empty]
      rw [single, List.filter_cons_of_pos (by simpa using empty)]
      exact Nat.succ_le_of_lt (List.length_pos_of_ne_nil (attributesOf_ne_nil some_))

/-- A text that goes on has no fewer attributes. -/
theorem length_attributes_le (s x : CStr) : (attributes s).length ≤ (attributes (s ++ x)).length := by
  obtain ⟨front, last, whole, longer⟩ := tokens_longer s
  obtain ⟨more, rest, longer⟩ := longer x
  rw [attributes, whole, attributes, longer, List.flatMap_append, List.flatMap_append, List.flatMap_cons,
    List.flatMap_cons, List.flatMap_nil, List.length_append, List.length_append, List.length_append,
    List.length_append, List.length_nil]
  have goesOn := length_attributesOf_le last more
  omega

theorem length_attributes_seenText (buf : CStr) :
    (attributes (seenText buf)).length ≤ (attributes buf).length := by
  obtain ⟨x, whole⟩ := seenText_append buf
  exact (length_attributes_le (seenText buf) x).trans_eq (congrArg (fun s => (attributes s).length) whole.symm)

theorem attributes_append (a b : CStr) {c : UInt8} (separator : Separates c) :
    attributes (a ++ c :: b) = attributes a ++ attributes b := by
  rw [attributes, tokens_append a b separator, List.flatMap_append, attributes, attributes]

/-- A text without attributes is made of separators. -/
theorem attributes_eq_nil_iff {s : CStr} : attributes s = [] ↔ ∀ c ∈ s, Separates c := by
  induction s with
  | nil => exact iff_of_true rfl fun c among => by cases among
  | cons c s ih =>
    rw [List.forall_mem_cons]
    by_cases separator : Separates c
    · have divided := attributes_append [] s separator
      rw [List.nil_append] at divided
      rw [divided, show attributes [] = [] from rfl, List.nil_append, ih]
      exact ⟨fun all => ⟨separator, all⟩, fun all => all.2⟩
    · refine iff_of_false ?_ fun all => separator all.1
      obtain ⟨tok, rest, split⟩ := tokens_eq_cons s
      have first : tokens (c :: s) = (c :: tok) :: rest := by
        have alone : ∀ d ∈ [c], ¬ Separates d := List.forall_mem_singleton.mpr separator
        rw [← List.singleton_append, tokens_front alone, split, List.modifyHead_cons, List.singleton_append]
      rw [attributes, first, List.flatMap_cons]
      exact List.append_ne_nil_of_left_ne_nil (attributesOf_ne_nil (List.cons_ne_nil _ _)) _

/-- A text with attributes begins with separators that something else follows. -/
theorem begins_with_separators {s : CStr} (some_ : attributes s ≠ []) :
    ∃ z d r, s = z ++ d :: r ∧ (∀ c ∈ z, Separates c) ∧ ¬ Separates d := by
  rw [Ne, attributes_eq_nil_iff] at some_
  induction s with
  | nil => exact absurd (fun c among => by cases among) some_
  | cons c s ih =>
    by_cases separator : Separates c
    · rw [List.forall_mem_cons, not_and] at some_
      obtain ⟨z, d, r, rfl, separators, other⟩ := ih (some_ separator)
      exact ⟨c :: z, d, r, rfl, List.forall_mem_cons.mpr ⟨separator, separators⟩, other⟩
    · exact ⟨[], c, s, rfl, List.forall_mem_nil _, separator⟩

/-! ## Where a text can be divided -/

section

variable {buf : CStr}

/-- Among as many characters as a token has at most there is a separator. -/
theorem exists_separator (short : ∀ tok ∈ tokens buf, tok.length < maxTokLen) {k : ℕ}
    (inside : k + maxTokLen ≤ buf.length) :
    ∃ a c b, buf = a ++ c :: b ∧ Separates c ∧ k ≤ a.length ∧ a.length < k + maxTokLen := by
  obtain ⟨window, rest, whole, size⟩ : ∃ window rest, buf = buf.take k ++ (window ++ rest) ∧
      window.length = maxTokLen := by
    refine ⟨(buf.drop k).take maxTokLen, (buf.drop k).drop maxTokLen, ?_, ?_⟩
    · rw [List.take_append_drop, List.take_append_drop]
    · rw [List.length_take, List.length_drop]
      omega
  have start : (buf.take k).length = k := by
    rw [List.length_take]
    omega
  generalize buf.take k = s at whole start
  by_cases divided : ∃ c ∈ window, Separates c
  · obtain ⟨c, among, separator⟩ := divided
    obtain ⟨left, right, rfl⟩ := List.append_of_mem among
    refine ⟨s ++ left, c, right ++ rest, by rw [whole]; simp, separator, ?_, ?_⟩
    · rw [List.length_append]
      omega
    · rw [List.length_append, List.length_cons] at size
      rw [List.length_append]
      omega
  · -- else the whole window lies in one token
    have within : ∀ c ∈ window, ¬ Separates c := fun c among separator => divided ⟨c, among, separator⟩
    obtain ⟨front, last, -, longer⟩ := splitOnP_append (fun c => decide (Separates c)) s
    obtain ⟨tok, toks, split⟩ := tokens_eq_cons rest
    have token : (last ++ (window ++ tok)) ∈ tokens buf := by
      have next : tokens (window ++ rest) = (window ++ tok) :: toks := by
        rw [tokens_front within, split, List.modifyHead_cons]
      unfold tokens at next
      rw [tokens, whole, longer, next, List.modifyHead_cons]
      simp
    have bound := short _ token
    rw [List.length_append, List.length_append, size] at bound
    omega

/-- The sum of what is seen of two sides, one of which has attributes and a length that is negative as an
`int`. -/
theorem attributes_divided {x y : CStr} (upper : 2 ^ 31 ≤ x.length % 2 ^ 32) (holds : attributes x ≠ []) :
    (attributes (seenText x)).length + (attributes (seenText y)).length <
      (attributes x).length + (attributes y).length := by
  have seen := length_attributes_seenText y
  have lost := List.length_pos_of_ne_nil holds
  rw [seenText_of_upper upper, show attributes [] = [] from rfl, List.length_nil]
  omega

/-- A text that begins with an attribute is divided behind it, so that nothing is seen of the left side. -/
theorem divided_left (short : ∀ tok ∈ tokens buf, tok.length < maxTokLen) {z r : CStr} {d : UInt8}
    (whole : buf = z ++ d :: r) (other : ¬ Separates d) (early : z.length ≤ 2 ^ 31)
    (far : 2 ^ 31 + 2 * maxTokLen ≤ buf.length) : ∃ a c b, buf = a ++ c :: b ∧ Separates c ∧
      (attributes (seenText a)).length + (attributes (seenText b)).length < (attributes buf).length := by
  obtain ⟨a, c, b, divided, separator, low, high⟩ := @exists_separator buf short (2 ^ 31 + maxTokLen) (by omega)
  have upper : 2 ^ 31 ≤ a.length % 2 ^ 32 := by
    unfold maxTokLen at low high
    omega
  have begins : z ++ [d] <+: a := by
    have front : z ++ [d] <+: buf := ⟨r, by rw [whole]; simp⟩
    refine List.prefix_of_prefix_length_le front ⟨c :: b, divided.symm⟩ ?_
    rw [List.length_append, List.length_singleton]
    unfold maxTokLen at low
    omega
  have holds : attributes a ≠ [] := fun none_ =>
    other (attributes_eq_nil_iff.mp none_ d (begins.subset (by simp)))
  have all := congrArg (fun s => (attributes s).length) divided
  rw [attributes_append a b separator, List.length_append] at all
  refine ⟨a, c, b, divided, separator, ?_⟩
  rw [all]
  exact attributes_divided upper holds

/-- A text that begins with many separators is divided between them, so that nothing is seen of the right side. -/
theorem divided_right {z r : CStr} {d : UInt8} (whole : buf = z ++ d :: r) (separators : ∀ c ∈ z, Separates c)
    (other : ¬ Separates d) (late : 2 ^ 31 < z.length) : ∃ a c b, buf = a ++ c :: b ∧ Separates c ∧
      (attributes (seenText a)).length + (attributes (seenText b)).length < (attributes buf).length := by
  have size := congrArg List.length whole
  rw [List.length_append, List.length_cons] at size
  obtain ⟨q, inside, upper⟩ : ∃ q, q < z.length ∧ 2 ^ 31 ≤ (buf.length - 1 - q) % 2 ^ 32 := by
    rcases lt_or_ge ((buf.length - 1) % 2 ^ 32) (2 ^ 31) with lower | upper
    · exact ⟨(buf.length - 1) % 2 ^ 32 + 1, by omega, by omega⟩
    · exact ⟨0, by omega, by omega⟩
  have divided : buf = z.take q ++ z[q] :: (z.drop (q + 1) ++ d :: r) := by
    have parts : z = z.take q ++ z[q] :: z.drop (q + 1) := by
      rw [← List.drop_eq_getElem_cons inside, List.take_append_drop]
    rw [whole, ← List.cons_append, ← List.append_assoc, ← parts]
  have separator : Separates z[q] := separators _ (List.getElem_mem inside)
  have sizeRight : (z.drop (q + 1) ++ d :: r).length = buf.length - 1 - q := by
    rw [List.length_append, List.length_drop, List.length_cons]
    omega
  have holds : attributes (z.drop (q + 1) ++ d :: r) ≠ [] := fun none_ =>
    other (attributes_eq_nil_iff.mp none_ d (List.mem_append_right _ List.mem_cons_self))
  have all := congrArg (fun s => (attributes s).length) divided
  rw [attributes_append _ _ separator, List.length_append] at all
  refine ⟨z.take q, _, _, divided, separator, ?_⟩
  rw [← sizeRight] at upper
  rw [all, Nat.add_comm, Nat.add_comm (attributes (z.take q)).length]
  exact attributes_divided upper holds

/-- A long text that has attributes can be divided so that what is seen of its two sides has fewer, or not
all of its attributes are seen of itself. -/
theorem attributes_lost (short : ∀ tok ∈ tokens buf, tok.length < maxTokLen) (long : 2 ^ 31 ≤ buf.length)
    (some_ : attributes buf ≠ []) : (attributes (seenText buf)).length < (attributes buf).length ∨
      ∃ a c b, buf = a ++ c :: b ∧ Separates c ∧
        (attributes (seenText a)).length + (attributes (seenText b)).length < (attributes buf).length := by
  rcases lt_or_ge buf.length (2 ^ 31 + 2 * maxTokLen) with near | far
  · have upper : 2 ^ 31 ≤ buf.length % 2 ^ 32 := by
      unfold maxTokLen at near
      omega
    left
    rw [seenText_of_upper upper]
    exact List.length_pos_of_ne_nil some_
  · obtain ⟨z, d, r, whole, separators, other⟩ := begins_with_separators some_
    right
    rcases le_or_gt z.length (2 ^ 31) with early | late
    · exact divided_left short whole other early far
    · exact divided_right whole separators other late

end

/-! ## Options of the grammar -/

theorem tokens_intercalate {t : CStr} {ts : List CStr} (whole : ∀ u ∈ t :: ts, ∀ c ∈ u, ¬ Separates c) :
    tokens ([44].intercalate (t :: ts)) = t :: ts := by
  induction ts generalizing t with
  | nil =>
    rw [List.intercalate_singleton]
    exact tokens_whole (whole t List.mem_cons_self)
  | cons u ts ih =>
    rw [List.intercalate_cons_cons, List.append_assoc, List.singleton_append, tokens_append _ _ (.inl rfl),
      tokens_whole (whole t List.mem_cons_self), ih fun v among => whole v (List.mem_cons_of_mem t among),
      List.singleton_append]

theorem text_ne_nil (a : OptionAttr) : a.text ≠ [] :=
  List.append_ne_nil_of_right_ne_nil _ (List.cons_ne_nil _ _)

/-- The tokens of options are their texts, and none of them is empty. -/
theorem tokens_optionText {o : MountOption} {os : List MountOption} :
    tokens (optionText (o :: os)) = (o :: os).map MountOption.text ∧ [] ∉ (o :: os).map MountOption.text := by
  constructor
  · rw [optionText, List.map_cons]
    refine tokens_intercalate fun u among => ?_
    rw [← List.map_cons] at among
    obtain ⟨b, -, rfl⟩ := List.mem_map.mp among
    exact b.whole
  · intro empty
    obtain ⟨b, -, isEmpty⟩ := List.mem_map.mp empty
    cases b with
    | general a =>
      rw [MountOption.text, MountOption.attributes, List.map_singleton, List.intercalate_singleton] at isEmpty
      exact text_ne_nil a isEmpty
    | key k isKey attributes =>
      have first := length_le_intercalate 58 (List.mem_map_of_mem (f := OptionAttr.text)
        (List.mem_cons_self (a := k) (l := attributes)))
      rw [show [58].intercalate ((k :: attributes).map OptionAttr.text) = [] from isEmpty] at first
      exact text_ne_nil k (List.length_eq_zero_iff.mp (Nat.le_zero.mp first))

theorem short_optionText {options : List MountOption} (fits : ∀ o ∈ options, o.text.length < maxTokLen) :
    ∀ tok ∈ tokens (optionText options), tok.length < maxTokLen := by
  rcases options with _ | ⟨o, os⟩
  · decide
  · intro tok among
    rw [tokens_optionText.1] at among
    obtain ⟨b, inside, rfl⟩ := List.mem_map.mp among
    exact fits b inside

/-- Options of 2^31 characters and more are not read back: what is not seen of them holds an attribute. -/
theorem attributes_optionText_lost {options : List MountOption}
    (fits : ∀ o ∈ options, o.text.length < maxTokLen) (long : 2 ^ 31 ≤ (optionText options).length) :
    (attributes (seenText (optionText options))).length < (attributes (optionText options)).length := by
  have short := short_optionText fits
  rcases options with _ | ⟨o, os⟩
  · exact absurd long (by decide)
  obtain ⟨split, nonempty⟩ := @tokens_optionText o os
  have size := length_seenText long
  obtain ⟨x, whole⟩ := seenText_append (optionText (o :: os))
  obtain ⟨a, c, b, divided, separator, low, high⟩ :=
    @exists_separator (optionText (o :: os)) short (seenText (optionText (o :: os))).length
      (by unfold maxTokLen; omega)
  generalize seenText (optionText (o :: os)) = s at whole size low high ⊢
  generalize optionText (o :: os) = buf at *
  -- what is seen lies in front of the separator, and an attribute stands behind it
  obtain ⟨more, rfl⟩ : s <+: a :=
    List.prefix_of_prefix_length_le ⟨x, whole.symm⟩ ⟨c :: b, divided.symm⟩ low
  have behind_ : attributes b ≠ [] := by
    intro none_
    obtain ⟨tok, rest, first⟩ := tokens_eq_cons b
    have empty : tok = [] := by
      by_contra some_
      rw [attributes, first, List.flatMap_cons, List.append_eq_nil_iff] at none_
      exact attributesOf_ne_nil some_ none_.1
    refine nonempty ?_
    rw [← split, divided, tokens_append _ _ separator, first, empty]
    exact List.mem_append_right _ List.mem_cons_self
  have front := length_attributes_le s more
  have back := List.length_pos_of_ne_nil behind_
  rw [divided, attributes_append _ _ separator, List.length_append]
  omega

/-- The attributes of options have one pair each. -/
theorem length_attributes_optionText {options : List MountOption}
    (fits : ∀ o ∈ options, o.text.length < maxTokLen) :
    (attributes (optionText options)).length = (optionPairs options).length := by
  have read := generateNvList_optionText fits
  rw [generateNvList_eq, reachedAttributes_of_short (short_optionText fits)] at read
  have accepted : ∀ part ∈ attributes (optionText options), ¬ Malformed part := by
    intro part among bad
    have failed := (readAttributes_fst _).mpr ⟨part, among, bad⟩
    rw [read] at failed
    exact failed rfl
  rw [readAttributes_of_wellFormed accepted, Prod.mk.injEq] at read
  have same := congrArg List.length read.2
  rwa [List.length_map, List.length_map, ← List.length_map OptionAttr.pair] at same

/-- **Which options are read back.**  Those of fewer than 2^31 characters in which no value contains an `=`. -/
theorem parseOptions_iff (options : List MountOption)
    (fits : ∀ o ∈ options, o.text.length < maxTokLen) :
    parseOptionsInt (some (optionText options)) = (0, optionPairs options) ↔
      (optionText options).length < 2 ^ 31 ∧ ∀ o ∈ options, ∀ a ∈ o.attributes, 61 ∉ a.value := by
  rw [parseOptionsInt]
  rcases lt_or_ge (optionText options).length (2 ^ 31) with seen | long
  · rw [generateNvListInt_of_lt seen, generateNvList_optionText fits, optionPairs, Prod.mk.injEq,
      List.map_inj_left]
    simp only [seen, true_and, List.mem_flatMap, forall_exists_index, and_imp,
      OptionAttr.readPair_eq_pair_iff]
    exact ⟨fun all o among a inside => all a o among inside,
      fun all a o among inside => all o among a inside⟩
  · refine iff_of_false (fun read => ?_) fun both => absurd both.1 (not_lt.mpr long)
    have lost := attributes_optionText_lost fits long
    obtain ⟨x, whole⟩ := seenText_append (optionText options)
    have short : ∀ tok ∈ tokens (seenText (optionText options)), tok.length < maxTokLen := by
      refine short_longer (x := x) ?_
      rw [← whole]
      exact short_optionText fits
    rw [generateNvListInt, generateNvList_eq, reachedAttributes_of_short short, readAttributes] at read
    have pairs := congrArg (fun result => result.2.length) read
    dsimp only at pairs
    rw [List.length_map] at pairs
    have kept := (List.takeWhile_sublist (fun part => decide ¬ Malformed part)
      (l := attributes (seenText (optionText options)))).length_le
    rw [length_attributes_optionText fits] at lost
    omega

/-- A general option, a key with two attributes, and an empty value. -/
def sampleOptions : List MountOption :=
  [.general ⟨lit "verbosity", lit "0", by decide, by decide +kernel, by decide +kernel⟩,
    .key ⟨lit "key", lit "passphrase", by decide, by decide +kernel, by decide +kernel⟩ rfl
      [⟨lit "passwd", lit "top secret", by decide, by decide +kernel, by decide +kernel⟩,
        ⟨lit "salt", lit "", by decide, by decide +kernel, by decide +kernel⟩]]

theorem parseOptions_sample :
    optionText sampleOptions = lit "verbosity=0,key=passphrase:passwd=top secret:salt=" ∧
      parseOptionsInt (some (optionText sampleOptions)) =
        (0, [⟨lit "verbosity", some (lit "0"), false⟩, ⟨lit "key", some (lit "passphrase"), false⟩,
          ⟨lit "passwd", some (lit "top secret"), false⟩, ⟨lit "salt", none, false⟩]) :=
  ⟨by decide, (parseOptions_iff sampleOptions (by decide)).mpr ⟨by decide, by decide⟩⟩

/-- The value of this passphrase contains the character that ends names. -/
def splitPassphrase : List MountOption :=
  [.general ⟨lit "passwd", lit "a=b", by decide, by decide +kernel, by decide +kernel⟩]

theorem parseOptions_split :
    parseOptionsInt (some (optionText splitPassphrase)) = (0, [⟨lit "passwd=a", some (lit "b"), false⟩]) ∧
      parseOptionsInt (some (optionText splitPassphrase)) ≠ (0, optionPairs splitPassphrase) := by
  decide

end Ecryptfs
