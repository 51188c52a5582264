import Mathlib.Data.List.DropRight
import Ecryptfs.Options.Parser

/-!
# The grammar of the options

Options are attributes with a name of lower-case letters and a value of printable characters other
than the comma and the colon; the attributes of a key follow it, separated by colons.
-/

namespace Ecryptfs

/-- An attribute of the grammar. -/
structure OptionAttr where
  name : CStr
  value : CStr
  nonempty : name ≠ []
  letters : ∀ c ∈ name, 97 ≤ c ∧ c ≤ 122
  printable : ∀ c ∈ value, 32 ≤ c ∧ c ≤ 126 ∧ c ≠ 44 ∧ c ≠ 58

/-- An option: a general attribute, or a key with its own attributes. -/
inductive MountOption where
  | general (a : OptionAttr)
  | key (k : OptionAttr) (isKey : k.name = lit "key") (attributes : List OptionAttr)

namespace OptionAttr

def text (a : OptionAttr) : CStr := a.name ++ 61 :: a.value

/-- The pair that the attribute stands for. -/
def pair (a : OptionAttr) : NameValPair := ⟨a.name, valueOf a.value, false⟩

end OptionAttr

/-- The pair that the parser reads from a text: its value is what follows the last `=`. -/
def readPair (text : CStr) : NameValPair where
  name := (text.rdropWhile (· ≠ 61)).dropLast
  value := valueOf (text.rtakeWhile (· ≠ 61))

namespace MountOption

/-- The attributes of an option, a key first. -/
def attributes : MountOption → List OptionAttr
  | .general a => [a]
  | .key k _ attributes => k :: attributes

def text (o : MountOption) : CStr := [58].intercalate (o.attributes.map OptionAttr.text)

end MountOption

/-- The text of a sequence of options. -/
def optionText (options : List MountOption) : CStr := [44].intercalate (options.map MountOption.text)

/-- The pairs that the options stand for. -/
def optionPairs (options : List MountOption) : List NameValPair :=
  (options.flatMap MountOption.attributes).map OptionAttr.pair

/-! ## Attributes -/

/-- The last occurrence of a character. -/
theorem exists_last {c : UInt8} {s : CStr} (among : c ∈ s) :
    ∃ front back, s = front ++ c :: back ∧ c ∉ back := by
  obtain ⟨back, front, here, absent⟩ := List.eq_append_cons_of_mem (List.mem_reverse.mpr among)
  refine ⟨front.reverse, back.reverse, ?_, by simpa using absent⟩
  have := congrArg List.reverse here
  simpa using this

/-- What is read from a text with its last `=` behind `front`. -/
theorem readPair_last {front back : CStr} (noEq : 61 ∉ back) :
    readPair (front ++ 61 :: back) = ⟨front, valueOf back, false⟩ := by
  have other : ∀ c ∈ back.reverse, (decide (c ≠ 61)) = true := by
    intro c among
    rw [decide_eq_true_iff]
    rintro rfl
    exact noEq (List.mem_reverse.mp among)
  have reversed : (front ++ 61 :: back).reverse = back.reverse ++ 61 :: front.reverse := by
    simp
  have taken : (front ++ 61 :: back).rtakeWhile (· ≠ 61) = back := by
    rw [List.rtakeWhile, reversed, List.takeWhile_append_of_pos other]
    simp
  have dropped : (front ++ 61 :: back).rdropWhile (· ≠ 61) = front ++ [61] := by
    rw [List.rdropWhile, reversed, List.dropWhile_append_of_pos other]
    simp
  rw [readPair, taken, dropped, List.dropLast_concat]

namespace OptionAttr

variable (a : OptionAttr)

theorem notMem_name {c : UInt8} (noLetter : c < 97) : c ∉ a.name := by
  intro among
  exact absurd (a.letters c among).1 (UInt8.not_le.mpr noLetter)

theorem notMem_text {c : UInt8} (noLetter : c < 97) (notEq : c ≠ 61) (noValue : c ∉ a.value) :
    c ∉ a.text := by
  rw [text, List.mem_append, List.mem_cons, not_or, not_or]
  exact ⟨a.notMem_name noLetter, notEq, noValue⟩

theorem noColon : 58 ∉ a.text :=
  a.notMem_text (by decide) (by decide) fun among => (a.printable 58 among).2.2.2 rfl

theorem whole : ∀ c ∈ a.text, ¬ Separates c := by
  rintro c among (rfl | rfl)
  · exact a.notMem_text (by decide) (by decide) (fun inValue => (a.printable 44 inValue).2.2.1 rfl) among
  · exact a.notMem_text (by decide) (by decide)
      (fun inValue => absurd (a.printable 10 inValue).1 (by decide)) among

/-- The attribute is read as it was written if and only if its value has no `=`. -/
theorem readPair_eq_pair_iff : readPair a.text = a.pair ↔ 61 ∉ a.value := by
  constructor
  · intro same among
    obtain ⟨front, back, here, noEq⟩ := exists_last among
    have split : a.text = (a.name ++ 61 :: front) ++ 61 :: back := by
      simp [text, here]
    rw [split, readPair_last noEq] at same
    have longer : a.name ++ 61 :: front = a.name := congrArg NameValPair.name same
    have := congrArg List.length longer
    simp at this
  · intro noEq
    exact readPair_last noEq

/-- The parser accepts the text of an attribute as one pair. -/
theorem accepted (depth : ℕ) (fits : a.text.length < maxTokLen) {pre : Option CStr}
    (noPrefix : pre.getD [] = []) (list : List NameValPair) :
    processCommaTok depth a.text pre list = (0, list ++ [readPair a.text]) := by
  have asPair : processCommaTok depth a.text pre list = processNvPair a.text pre list := by
    rcases named : a.name with _ | ⟨c, rest⟩
    · exact absurd named a.nonempty
    · have isText : a.text = c :: (rest ++ 61 :: a.value) := by
        rw [text, named, List.cons_append]
      have letter : c ≠ 61 := by
        rintro rfl
        exact a.notMem_name (by decide) (named ▸ List.mem_cons_self)
      have noColon := a.noColon
      rw [isText] at fits noColon ⊢
      exact processCommaTok_pair depth pre list fits.le letter noColon
  obtain ⟨front, back, here, noEq⟩ := exists_last (c := 61) (s := a.text) (by simp [text])
  have named : front ≠ [] := by
    rintro rfl
    rcases letters : a.name with _ | ⟨c, rest⟩
    · exact a.nonempty letters
    · rw [text, letters, List.cons_append, List.nil_append] at here
      have isEq : (61 : UInt8) ∈ a.name := by
        rw [letters, (List.cons.inj here).1]
        exact List.mem_cons_self
      exact a.notMem_name (by decide) isEq
  rw [asPair]
  rw [here] at fits ⊢
  rw [readPair_last noEq]
  exact processNvPair_last noEq named fits noPrefix list

end OptionAttr

/-! ## Options -/

theorem length_le_intercalate (c : UInt8) {t : CStr} {ts : List CStr} (among : t ∈ ts) :
    t.length ≤ ([c].intercalate ts).length := by
  induction ts with
  | nil => cases among
  | cons u ts ih =>
    rcases ts with _ | ⟨v, ts⟩
    · rw [List.mem_singleton.mp among, List.intercalate_singleton]
    · rw [List.intercalate_cons_cons, List.length_append, List.length_append]
      rcases List.mem_cons.mp among with rfl | later
      · omega
      · have := ih later
        omega

theorem mem_intercalate {c d : UInt8} {ts : List CStr} (among : d ∈ [c].intercalate ts) :
    d = c ∨ ∃ t ∈ ts, d ∈ t := by
  induction ts with
  | nil => cases among
  | cons u ts ih =>
    rcases ts with _ | ⟨v, ts⟩
    · rw [List.intercalate_singleton] at among
      exact .inr ⟨u, List.mem_cons_self, among⟩
    · rw [List.intercalate_cons_cons, List.mem_append, List.mem_append, List.mem_singleton] at among
      rcases among with (inside | same) | later
      · exact .inr ⟨u, List.mem_cons_self, inside⟩
      · exact .inl same
      · rcases ih later with same | ⟨t, isOne, inside⟩
        · exact .inl same
        · exact .inr ⟨t, List.mem_cons_of_mem u isOne, inside⟩

namespace MountOption

variable (o : MountOption)

theorem length_le_of_mem {a : OptionAttr} (among : a ∈ o.attributes) :
    a.text.length ≤ o.text.length :=
  length_le_intercalate 58 (List.mem_map.mpr ⟨a, among, rfl⟩)

theorem whole : ∀ c ∈ o.text, ¬ Separates c := by
  intro c among
  rcases mem_intercalate among with rfl | ⟨u, isText, inside⟩
  · rintro (h | h) <;> cases h
  · obtain ⟨a, -, rfl⟩ := List.mem_map.mp isText
    exact a.whole c inside

/-- A key with attributes of its own is split at the colons. -/
theorem splits {k a : OptionAttr} (isKey : k.name = lit "key") (as : List OptionAttr) :
    isColonList (MountOption.key k isKey (a :: as)).text = true := by
  have begins : (MountOption.key k isKey (a :: as)).text =
      lit "key=" ++ (k.value ++ 58 :: [58].intercalate ((a :: as).map OptionAttr.text)) := by
    have isText : k.text = lit "key=" ++ k.value := by
      rw [OptionAttr.text, isKey]
      rfl
    rw [text, attributes, List.map_cons, List.map_cons, List.intercalate_cons_cons, isText,
      List.append_assoc, List.append_assoc]
    rfl
  have four : (lit "key=").length = 4 := by decide
  rw [isColonList, begins, Bool.and_eq_true, Bool.and_eq_true, List.isPrefixOf_iff_prefix,
    decide_eq_true_iff, ← four, List.drop_left, List.contains_iff_mem]
  refine ⟨⟨?_, List.prefix_append _ _⟩, by simp⟩
  simp

/-- The parser accepts the text of an option as its attributes. -/
theorem accepted (fits : o.text.length < maxTokLen) (list : List NameValPair) :
    processCommaTok 1 o.text none list =
      (0, list ++ o.attributes.map fun a => readPair a.text) := by
  have single : ∀ a : OptionAttr, [58].intercalate ([a].map OptionAttr.text) = a.text := fun a => by
    rw [List.map_singleton, List.intercalate_singleton]
  have short : ∀ a ∈ o.attributes, a.text.length < maxTokLen :=
    fun a among => (o.length_le_of_mem among).trans_lt fits
  rcases o with a | ⟨k, isKey, _ | ⟨a, as⟩⟩
  · rw [text, attributes, single]
    exact a.accepted 1 (short a List.mem_cons_self) rfl list
  · rw [text, attributes, single]
    exact k.accepted 1 (short k List.mem_cons_self) rfl list
  · have split := splits (a := a) isKey as
    have begins : ∃ rest, (MountOption.key k isKey (a :: as)).text = 107 :: rest := by
      rw [text, attributes, List.map_cons, List.map_cons, List.intercalate_cons_cons, OptionAttr.text,
        isKey]
      exact ⟨_, rfl⟩
    obtain ⟨rest, isText⟩ := begins
    have notEmpty : (MountOption.key k isKey (a :: as)).text ≠ [] := by
      rw [isText]
      exact List.cons_ne_nil _ _
    have noSeparator : ¬ ((MountOption.key k isKey (a :: as)).text.head? = some 61 ∨
        (MountOption.key k isKey (a :: as)).text.head? = some 58) := by
      simp [isText]
    unfold processCommaTok
    rw [if_neg notEmpty, if_neg (not_lt.mpr fits.le), if_neg noSeparator, if_pos split]
    have isOne : ∀ u ∈ k.text :: (a :: as).map OptionAttr.text, ∃ b ∈ k :: a :: as, b.text = u :=
      fun u among => List.mem_map.mp among
    have loop := colonLoop_intercalate (processCommaTok 0) (fun u => [readPair u])
      (fun u among => by
        obtain ⟨b, -, rfl⟩ := isOne u among
        exact b.noColon)
      (fun u among pre list noPrefix => by
        obtain ⟨b, inside, rfl⟩ := isOne u among
        exact b.accepted 0 (short b inside) noPrefix list) list
    rw [text, attributes, List.map_cons]
    refine loop.trans ?_
    rw [← List.map_cons, List.flatMap_map, List.map_eq_flatMap]

end MountOption

/-- What the parser makes of options whose tokens are shorter than its buffer. -/
theorem generateNvList_optionText {options : List MountOption}
    (fits : ∀ o ∈ options, o.text.length < maxTokLen) :
    generateNvList (optionText options) =
      (0, (options.flatMap MountOption.attributes).map fun a => readPair a.text) := by
  rcases options with _ | ⟨o, os⟩
  · rfl
  · have isOne : ∀ u ∈ o.text :: os.map MountOption.text, ∃ b ∈ o :: os, b.text = u :=
      fun u among => List.mem_map.mp among
    have alone : ∀ b ∈ o :: os, (processCommaTok 1 b.text none []).2 =
        b.attributes.map fun a => readPair a.text := fun b inside => by
      rw [b.accepted (fits b inside) [], List.nil_append]
    have loop := nvListLoop_intercalate (.inl rfl) (fun u => (processCommaTok 1 u none []).2)
      (fun u among => by
        obtain ⟨b, -, rfl⟩ := isOne u among
        exact b.whole)
      (fun u among => by
        obtain ⟨b, inside, rfl⟩ := isOne u among
        exact fits b inside)
      (fun u among list => by
        obtain ⟨b, inside, rfl⟩ := isOne u among
        rw [alone b inside]
        exact b.accepted (fits b inside) list) []
    rw [generateNvList, optionText, List.map_cons, loop, List.nil_append, ← List.map_cons,
      List.flatMap_map, List.map_flatMap]
    exact congrArg (Prod.mk 0) (List.flatMap_congr alone)

end Ecryptfs
