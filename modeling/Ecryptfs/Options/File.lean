import Ecryptfs.Options.Parser

/-!
# Files with options

The text of a file with options is parsed like the options of a mount.  A passphrase is kept in a file as a
line of its own, among other lines that are empty or hold options of another name.
-/

namespace Ecryptfs

def maxFileSize : ℕ := 0xa000

/-- An option on a line. -/
structure OptionLine (name value : CStr) : Prop where
  named : name ≠ []
  fits : (name ++ 61 :: value).length < maxTokLen
  noSeparator : ∀ c ∈ name ++ value, c ≠ 44 ∧ c ≠ 10
  noColon : 58 ∉ name ++ value
  noEq : 61 ∉ name ++ value

/-- A line without an option of one of the names. -/
def OtherLine (names : List CStr) (line : CStr) : Prop :=
  line = [] ∨ ∃ name value, line = name ++ 61 :: value ∧ OptionLine name value ∧ name ∉ names

/-- The text of a file in which one line is the option `name` with the value `P`, and the other lines have none of
the names. -/
def ValueText (names : List CStr) (name P text : CStr) : Prop :=
  text.length ≤ maxFileSize ∧ ∃ front back, text = [10].intercalate (front ++ (name ++ 61 :: P) :: back) ∧
    ∀ line ∈ front ++ back, OtherLine names line

/-- The names of a passphrase. -/
def passwordNames : List CStr := [lit "passphrase_passwd", lit "passwd"]

/-- The text of a file in which one line is a passphrase. -/
def PassText (P text : CStr) : Prop := ValueText passwordNames (lit "passphrase_passwd") P text

/-- The pairs of a line. -/
def linePairs (line : CStr) : List NameValPair := (processCommaTok 1 line none []).2

/-- An option on a line is read as its pair. -/
theorem OptionLine.accepted {name value : CStr} (option : OptionLine name value)
    (list : List NameValPair) : processCommaTok 1 (name ++ 61 :: value) none list =
      (0, list ++ [⟨name, valueOf value, false⟩]) := by
  obtain ⟨c, rest, rfl⟩ := List.exists_cons_of_ne_nil option.named
  have notEq : c ≠ 61 := by
    rintro rfl
    exact option.noEq (by simp)
  have noColon : 58 ∉ c :: (rest ++ 61 :: value) := by
    have absent := option.noColon
    simp only [List.cons_append, List.mem_cons, List.mem_append, not_or] at absent ⊢
    exact ⟨absent.1, absent.2.1, by decide, absent.2.2⟩
  have noEq : 61 ∉ value := fun among => option.noEq (List.mem_append_right _ among)
  exact (processCommaTok_pair 1 none list option.fits.le notEq noColon).trans
    (processNvPair_last noEq option.named option.fits rfl list)

theorem OptionLine.pairs {name value : CStr} (option : OptionLine name value) :
    linePairs (name ++ 61 :: value) = [⟨name, valueOf value, false⟩] := by
  rw [linePairs, option.accepted, List.nil_append]

theorem OptionLine.whole {name value : CStr} (option : OptionLine name value) :
    ∀ c ∈ name ++ 61 :: value, ¬ Separates c := by
  intro c among
  rw [List.mem_append, List.mem_cons] at among
  rcases among with inName | rfl | inValue
  · exact not_or.mpr (option.noSeparator c (List.mem_append_left _ inName))
  · simp [Separates]
  · exact not_or.mpr (option.noSeparator c (List.mem_append_right _ inValue))

/-- What a line that is empty or an option comes to. -/
structure LineRead (line : CStr) : Prop where
  whole : ∀ c ∈ line, ¬ Separates c
  fits : line.length < maxTokLen
  accepted : ∀ list, processCommaTok 1 line none list = (0, list ++ linePairs line)

theorem OptionLine.read {name value : CStr} (option : OptionLine name value) :
    LineRead (name ++ 61 :: value) :=
  ⟨option.whole, option.fits, fun list => by rw [option.pairs, option.accepted]⟩

theorem OtherLine.read {names : List CStr} {line : CStr} (other : OtherLine names line) : LineRead line := by
  rcases other with rfl | ⟨name, value, rfl, option, -⟩
  · refine ⟨fun c none_ => (by cases none_), by decide, fun list => ?_⟩
    exact congrArg (Prod.mk 0) (List.append_nil list).symm
  · exact option.read

/-- Lines that are read one by one are read together. -/
theorem generateNvList_lines {line : CStr} {lines : List CStr}
    (read : ∀ l ∈ line :: lines, LineRead l) :
    generateNvList ([10].intercalate (line :: lines)) = (0, (line :: lines).flatMap linePairs) :=
  nvListLoop_intercalate (.inr rfl) linePairs (fun l among => (read l among).whole)
    (fun l among => (read l among).fits) (fun l among => (read l among).accepted) []

theorem OtherLine.noValue {names : List CStr} {line : CStr} (other : OtherLine names line) :
    ∀ e ∈ linePairs line, e.name ∉ names := by
  rcases other with rfl | ⟨name, value, rfl, option, absent⟩
  · intro e none_
    cases none_
  · rw [option.pairs, List.forall_mem_singleton]
    exact absent

/-- The value of the line is the first one in the file. -/
theorem valueText_read {names : List CStr} {name P text : CStr} (among : name ∈ names) (some_ : P ≠ [])
    (option : OptionLine name P) (file : ValueText names name P text) :
    ∃ list, generateNvListInt text = (0, list) ∧
      list.find? (fun e => e.name ∈ names) = some ⟨name, some P, false⟩ := by
  obtain ⟨fits, front, back, rfl, others⟩ := file
  have read : ∀ l ∈ front ++ (name ++ 61 :: P) :: back, LineRead l := by
    intro l among
    rw [List.mem_append, List.mem_cons] at among
    rcases among with inFront | rfl | inBack
    · exact (others l (List.mem_append_left _ inFront)).read
    · exact option.read
    · exact (others l (List.mem_append_right _ inBack)).read
  have parsed : generateNvList ([10].intercalate (front ++ (name ++ 61 :: P) :: back)) =
      (0, (front ++ (name ++ 61 :: P) :: back).flatMap linePairs) := by
    rcases front with _ | ⟨line, front⟩
    · exact generateNvList_lines read
    · exact generateNvList_lines read
  have small : maxFileSize < 2 ^ 31 := by decide
  refine ⟨_, (generateNvListInt_of_lt (fits.trans_lt small)).trans parsed, ?_⟩
  have before : (front.flatMap linePairs).find? (fun e => e.name ∈ names) = none := by
    rw [List.find?_eq_none]
    intro e among
    obtain ⟨l, inFront, isPair⟩ := List.mem_flatMap.mp among
    rw [decide_eq_true_eq]
    exact (others l (List.mem_append_left _ inFront)).noValue e isPair
  have line : linePairs (name ++ 61 :: P) = [⟨name, some P, false⟩] := by
    rw [option.pairs, valueOf, if_neg some_]
  rw [List.flatMap_append, List.find?_append, before, Option.none_or, List.flatMap_cons, line,
    List.singleton_append, List.find?_cons_of_pos (by simpa using among)]

/-- The first passphrase of a file. -/
def filePassword (list : List NameValPair) : Option CStr :=
  (list.find? fun e => e.name = lit "passphrase_passwd" ∨ e.name = lit "passwd").map fun e =>
    printed e.value

/-- The passphrase of the line is found in the file. -/
theorem passText_read {P text : CStr} (some_ : P ≠ []) (option : OptionLine (lit "passphrase_passwd") P)
    (file : PassText P text) :
    ∃ list, generateNvListInt text = (0, list) ∧ filePassword list = some P := by
  obtain ⟨list, parsed, found⟩ := valueText_read List.mem_cons_self some_ option file
  simp only [List.mem_cons, List.not_mem_nil, or_false] at found
  refine ⟨list, parsed, ?_⟩
  rw [filePassword, found]
  rfl

end Ecryptfs
