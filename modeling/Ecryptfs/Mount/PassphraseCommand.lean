import Ecryptfs.Mount.Command
import Ecryptfs.Mount.PassphraseFile
import Ecryptfs.Mount.Secrets
import Ecryptfs.Options.Tokens

/-!
# The mount command

What can be on the command line of the mount command.  A complete list of options for a passphrase leads to the
signature of the passphrase and the parameters of the mount, and nothing else (`passphrase_mounts`); in any run
it is the parameters of the graph and options of the user, and never a passphrase that is not one of the words of
the graph (`command_options`).
-/

namespace Ecryptfs

open StateTransition Separated Covering

/-! ## The options of a mount with a passphrase -/

/-- An option with a value. -/
def assignment (o : CStr × CStr) : CStr := o.1 ++ 61 :: o.2

/-- The option for a feature, if it is answered. -/
def answerOption (name : String) (answer : Option Bool) : List (CStr × CStr) :=
  (answer.map fun yes => (lit name, answerText yes)).toList

/-- The options of a mount besides the key. -/
def plainOptions (cipher : String) (size : ℕ) (answers : FeatureAnswers) : List (CStr × CStr) :=
  [(lit "verbosity", lit "0"), (lit "ecryptfs_cipher", lit cipher), (lit "ecryptfs_key_bytes", decimalText size)] ++
    (answerOption "ecryptfs_passthrough" answers.passthrough ++ (answerOption "ecryptfs_hmac" answers.hmac ++
      (answerOption "ecryptfs_xattr" answers.xattr ++
        answerOption "ecryptfs_encrypted_view" answers.encryptedView)))

/-- The option for the key of a passphrase. -/
def keyOption (P : CStr) : CStr := lit "key=passphrase" ++ 58 :: assignment (lit "passphrase_passwd", P)

/-- The options of a mount with the passphrase `P`. -/
def passphraseOptionTexts (P : CStr) (cipher : String) (size : ℕ) (answers : FeatureAnswers) : List CStr :=
  keyOption P :: (plainOptions cipher size answers).map assignment

variable {sys : MountSystem} {mods : UInt32 → List GraphModule} {inputs : List (Except {rc : ℤ // rc < 0} CStr)}
  {P opts : CStr} {cipher : String} {size : ℕ} {answers : FeatureAnswers}

/-- A text without the characters that the parser looks for. -/
def PlainText (s : CStr) : Prop := ∀ c ∈ s, c ≠ 44 ∧ c ≠ 10 ∧ c ≠ 58 ∧ c ≠ 61

instance (s : CStr) : Decidable (PlainText s) :=
  List.decidableBAll (fun c => c ≠ 44 ∧ c ≠ 10 ∧ c ≠ 58 ∧ c ≠ 61) s

theorem optionLine_of_plain {name value : CStr} (named : name ≠ []) (fits : name.length + value.length < 127)
    (plainName : PlainText name) (plainValue : PlainText value) : OptionLine name value := by
  have all : ∀ c ∈ name ++ value, c ≠ 44 ∧ c ≠ 10 ∧ c ≠ 58 ∧ c ≠ 61 := by
    intro c inside
    rcases List.mem_append.mp inside with inside | inside
    · exact plainName c inside
    · exact plainValue c inside
  refine ⟨named, ?_, fun c inside => ⟨(all c inside).1, (all c inside).2.1⟩,
    fun inside => (all _ inside).2.2.1 rfl, fun inside => (all _ inside).2.2.2 rfl⟩
  rw [List.length_append, List.length_cons]
  change name.length + (value.length + 1) < 128
  omega

theorem mem_answerOption {name : String} {answer : Option Bool} {o : CStr × CStr}
    (among : o ∈ answerOption name answer) : ∃ yes, o = (lit name, answerText yes) := by
  cases answer with
  | none => cases among
  | some yes => exact ⟨yes, List.mem_singleton.mp among⟩

/-- The options besides the key. -/
theorem mem_plainOptions {o : CStr × CStr} (among : o ∈ plainOptions cipher size answers) :
    o = (lit "verbosity", lit "0") ∨ o = (lit "ecryptfs_cipher", lit cipher) ∨
      o = (lit "ecryptfs_key_bytes", decimalText size) ∨
      ∃ name ∈ ["ecryptfs_passthrough", "ecryptfs_hmac", "ecryptfs_xattr", "ecryptfs_encrypted_view"], ∃ yes,
        o = (lit name, answerText yes) := by
  unfold plainOptions at among
  simp only [List.mem_append, List.mem_cons, List.not_mem_nil, or_false] at among
  rcases among with (first | second | third) | answer
  · exact .inl first
  · exact .inr (.inl second)
  · exact .inr (.inr (.inl third))
  · rcases answer with answer | answer | answer | answer
    · exact .inr (.inr (.inr ⟨_, by simp, mem_answerOption answer⟩))
    · exact .inr (.inr (.inr ⟨_, by simp, mem_answerOption answer⟩))
    · exact .inr (.inr (.inr ⟨_, by simp, mem_answerOption answer⟩))
    · exact .inr (.inr (.inr ⟨_, by simp, mem_answerOption answer⟩))

theorem plainOptions_line (known : cipher ∈ cipherDescriptors) (supported : (cipher, size) ∈ supportedKeyBytes) :
    ∀ o ∈ plainOptions cipher size answers, OptionLine o.1 o.2 := by
  have ciphers : ∀ name ∈ cipherDescriptors, (lit name).length < 20 ∧ PlainText (lit name) := by decide
  have sizes : ∀ e ∈ supportedKeyBytes, (decimalText e.2).length < 20 ∧ PlainText (decimalText e.2) := by decide
  have features : ∀ name ∈ ["ecryptfs_passthrough", "ecryptfs_hmac", "ecryptfs_xattr", "ecryptfs_encrypted_view"],
      lit name ≠ [] ∧ (lit name).length < 30 ∧ PlainText (lit name) := by decide
  have values : ∀ yes, (answerText yes).length = 1 ∧ PlainText (answerText yes) := by decide
  intro o among
  rcases mem_plainOptions among with rfl | rfl | rfl | ⟨name, inside, yes, rfl⟩
  · show OptionLine (lit "verbosity") (lit "0")
    exact optionLine_of_plain (by decide) (by decide) (by decide) (by decide)
  · obtain ⟨short, plain⟩ := ciphers cipher known
    have length : (lit "ecryptfs_cipher").length = 15 := by decide
    show OptionLine (lit "ecryptfs_cipher") (lit cipher)
    exact optionLine_of_plain (by decide) (by omega) (by decide) plain
  · obtain ⟨short, plain⟩ := sizes _ supported
    dsimp only at short plain
    have length : (lit "ecryptfs_key_bytes").length = 18 := by decide
    show OptionLine (lit "ecryptfs_key_bytes") (decimalText size)
    exact optionLine_of_plain (by decide) (by omega) (by decide) plain
  · obtain ⟨named, short, plain⟩ := features name inside
    obtain ⟨length, plainValue⟩ := values yes
    show OptionLine (lit name) (answerText yes)
    exact optionLine_of_plain named (by omega) plain plainValue

/-! ### What the parser makes of them -/

theorem OptionLine.attributes {o : CStr × CStr} (option : OptionLine o.1 o.2) :
    attributesOf (assignment o) = [assignment o] := by
  have noColon : 58 ∉ assignment o := by
    have absent := option.noColon
    simp only [assignment, List.mem_cons, List.mem_append, not_or] at absent ⊢
    exact ⟨absent.1, by decide, absent.2⟩
  have some_ : assignment o ≠ [] := by simp [assignment]
  unfold attributesOf
  rw [isColonList_of_notMem noColon]
  simp [some_]

theorem OptionLine.pair {o : CStr × CStr} (option : OptionLine o.1 o.2) :
    attributePair (assignment o) = ⟨o.1, valueOf o.2, false⟩ := by
  have noEq : 61 ∉ o.2 := fun among => option.noEq (List.mem_append_right _ among)
  have hasEq : 61 ∈ assignment o := by simp [assignment]
  rw [attributePair, if_pos hasEq, assignment, readPair_last noEq]

/-- The parser does not refuse an option with a name. -/
theorem OptionLine.accepts {o : CStr × CStr} (option : OptionLine o.1 o.2) : ¬ Malformed (assignment o) := by
  obtain ⟨c, rest, isName⟩ := List.exists_cons_of_ne_nil option.named
  have inside : c ∈ o.1 ++ o.2 := List.mem_append_left _ (isName ▸ List.mem_cons_self)
  have head : (assignment o).head? = some c := by
    unfold assignment
    rw [isName]
    rfl
  unfold Malformed
  rw [head]
  rintro (isEq | isColon)
  · exact option.noEq (Option.some.inj isEq ▸ inside)
  · exact option.noColon (Option.some.inj isColon ▸ inside)

theorem keyOption_attributes (passphrase : Passphrase P) : attributesOf (keyOption P) =
    [lit "key=passphrase", assignment (lit "passphrase_passwd", P)] := by
  have line := passphrase.line
  have noColon : 58 ∉ assignment (lit "passphrase_passwd", P) := by
    have absent := line.noColon
    simp only [assignment, List.mem_cons, List.mem_append, not_or] at absent ⊢
    exact ⟨absent.1, by decide, absent.2⟩
  have parts : (keyOption P).splitOn 58 = [lit "key=passphrase", assignment (lit "passphrase_passwd", P)] := by
    have first : fields 58 (lit "key=passphrase") = [lit "key=passphrase"] := fields_of_notMem (by decide)
    have second := fields_of_notMem noColon
    have split : fields 58 (keyOption P) = fields 58 (lit "key=passphrase") ++
        fields 58 (assignment (lit "passphrase_passwd", P)) := fields_append _ _
    rw [first, second] at split
    exact split
  have isList : isColonList (keyOption P) = true :=
    isColonList_append (show isColonList (lit "key=passphrase:") = true by decide) _
  have some_ : lit "key=passphrase" ≠ [] := by decide
  unfold attributesOf
  rw [if_pos isList, parts]
  simp [assignment, some_]

/-- The attributes of a mount with a passphrase, in the order of its options. -/
theorem attributes_pairs (passphrase : Passphrase P) (known : cipher ∈ cipherDescriptors)
    (supported : (cipher, size) ∈ supportedKeyBytes) :
    (((passphraseOptionTexts P cipher size answers).flatMap attributesOf).map attributePair).Perm
      (entries (mountTable .passwd (some P) none cipher size answers)) := by
  have lines := @plainOptions_line cipher size answers known supported
  have value : valueOf P = some P := if_neg passphrase.some_
  have plain : ∀ os : List (CStr × CStr), (∀ o ∈ os, OptionLine o.1 o.2) →
      ((os.map assignment).flatMap attributesOf).map attributePair = os.map fun o => ⟨o.1, valueOf o.2, false⟩ := by
    intro os lines
    induction os with
    | nil => rfl
    | cons o os ih =>
      have first := lines o List.mem_cons_self
      rw [List.map_cons, List.flatMap_cons, List.map_append, first.attributes, List.map_singleton, first.pair,
        ih fun o' among => lines o' (List.mem_cons_of_mem o among)]
      rfl
  have key : (attributesOf (keyOption P)).map attributePair =
      [⟨lit "key", some (lit "passphrase"), false⟩, ⟨lit "passphrase_passwd", some P, false⟩] := by
    have noEq : 61 ∉ P := fun among => (passphrase.clean 61 among).2.2.1 rfl
    have pair : attributePair (assignment (lit "passphrase_passwd", P)) =
        ⟨lit "passphrase_passwd", some P, false⟩ := by
      rw [attributePair, if_pos (by simp [assignment]), assignment, readPair_last noEq, value]
    rw [keyOption_attributes passphrase, List.map_cons, List.map_singleton, pair]
    rfl
  have answer : ∀ name given, (answerOption name given).map (fun o => (⟨o.1, valueOf o.2, false⟩ : NameValPair)) =
      ((given.map fun yes => some (answerText yes)).map fun value => ⟨lit name, value, false⟩).toList := by
    intro name given
    rcases given with _ | _ | _ <;> rfl
  have ciphers : ∀ name ∈ cipherDescriptors, valueOf (lit name) = some (lit name) := by decide
  have sizes : ∀ e ∈ supportedKeyBytes, valueOf (decimalText e.2) = some (decimalText e.2) := by decide
  have rest : entries (mountTable .passwd (some P) none cipher size answers) =
      ⟨lit "verbosity", some (lit "0"), false⟩ ::
        ([⟨lit "key", some (lit "passphrase"), false⟩, ⟨lit "passphrase_passwd", some P, false⟩] ++
        ((plainOptions cipher size answers).map fun o => (⟨o.1, valueOf o.2, false⟩ : NameValPair)).tail) := by
    unfold plainOptions
    simp only [List.map_append, List.map_cons, answer, ciphers cipher known, sizes _ supported,
      List.cons_append, List.nil_append, List.tail_cons]
    simp only [mountTable, entries_cons]
    simp [entries, PassWay.option]
  rw [passphraseOptionTexts, List.flatMap_cons, List.map_append, key, plain _ lines, rest]
  exact List.perm_middle

/-- Without newlines the tokens are what stands between commas. -/
theorem tokens_eq_fields {buf : CStr} (noNewline : 10 ∉ buf) : tokens buf = fields 44 buf := by
  unfold tokens fields List.splitOn
  induction buf with
  | nil => rfl
  | cons c buf ih =>
    rw [List.mem_cons, not_or] at noNewline
    have same : decide (Separates c) = (c == 44) := by
      unfold Separates
      by_cases comma : c = 44
      · simp [comma]
      · simp [comma, Ne.symm noNewline.1]
    rw [List.splitOnP_cons_eq_if_modifyHead, List.splitOnP_cons_eq_if_modifyHead, same, ih noNewline.2]

/-- The texts of the options have no newlines and fit the buffers of the parser. -/
theorem passphraseOptionTexts_fit (passphrase : Passphrase P) (known : cipher ∈ cipherDescriptors)
    (supported : (cipher, size) ∈ supportedKeyBytes) :
    ∀ t ∈ passphraseOptionTexts P cipher size answers, 10 ∉ t ∧ t.length < maxTokLen ∧
      ∀ part ∈ attributesOf t, ¬ Malformed part := by
  intro t among
  rcases List.mem_cons.mp among with rfl | among
  · have line := passphrase.line
    refine ⟨fun inside => ?_, ?_, fun part inside => ?_⟩
    · rcases List.mem_append.mp inside with inside | inside
      · exact absurd inside (by decide)
      · rcases List.mem_cons.mp inside with same | inside
        · cases same
        · exact (line.whole 10 inside) (.inr rfl)
    · have front : (lit "key=passphrase").length = 14 := by decide
      have name : (lit "passphrase_passwd").length = 17 := by decide
      have fits := passphrase.fits
      change _ ≤ 64 at fits
      unfold keyOption assignment
      change (lit "key=passphrase" ++ 58 :: (lit "passphrase_passwd" ++ 61 :: P)).length < 128
      simp only [List.length_append, List.length_cons, front, name]
      omega
    · rw [keyOption_attributes passphrase] at inside
      rcases List.mem_cons.mp inside with rfl | inside
      · decide
      · obtain rfl := List.mem_singleton.mp inside
        exact (show OptionLine (lit "passphrase_passwd", P).1 (lit "passphrase_passwd", P).2 from line).accepts
  · obtain ⟨o, inside, rfl⟩ := List.mem_map.mp among
    have line := plainOptions_line known supported o inside
    refine ⟨fun newline => line.whole 10 newline (.inr rfl), line.fits, fun part isPart => ?_⟩
    rw [line.attributes] at isPart
    rw [List.mem_singleton.mp isPart]
    exact line.accepts

/-- There are at most nine texts of options. -/
theorem length_passphraseOptionTexts : (passphraseOptionTexts P cipher size answers).length ≤ 9 := by
  have few : ∀ name given, (answerOption name given).length ≤ 1 := by
    intro name given
    cases given <;> simp [answerOption]
  unfold passphraseOptionTexts plainOptions
  simp only [List.length_cons, List.length_map, List.length_append, List.length_nil]
  have := few "ecryptfs_passthrough" answers.passthrough
  have := few "ecryptfs_hmac" answers.hmac
  have := few "ecryptfs_xattr" answers.xattr
  have := few "ecryptfs_encrypted_view" answers.encryptedView
  omega

/-- Options that fit the buffers of the parser have a length that an `int` holds. -/
theorem length_options_lt (fit : ∀ t ∈ passphraseOptionTexts P cipher size answers, t.length < maxTokLen)
    (given : (fields 44 opts).Perm (passphraseOptionTexts P cipher size answers)) : opts.length < 2 ^ 31 := by
  have some_ : fields 44 opts ≠ [] := fields_ne_nil opts
  have whole := length_join 44 some_
  rw [join_fields, (given.map fun t => t.length + 1).sum_eq] at whole
  have bound := List.sum_le_card_nsmul _ maxTokLen fun n
      (among : n ∈ (passphraseOptionTexts P cipher size answers).map fun t => List.length t + 1) => by
    obtain ⟨t, inside, rfl⟩ := List.mem_map.mp among
    exact fit t inside
  rw [List.length_map, smul_eq_mul] at bound
  have few := Nat.mul_le_mul_right maxTokLen (@length_passphraseOptionTexts P cipher size answers)
  unfold maxTokLen at bound few
  omega

/-- **How the options are read**: as the pairs of the table, in the order of the user. -/
theorem parse_passphraseOptions (passphrase : Passphrase P) (known : cipher ∈ cipherDescriptors)
    (supported : (cipher, size) ∈ supportedKeyBytes)
    (given : (fields 44 opts).Perm (passphraseOptionTexts P cipher size answers)) :
    ∃ pairs, parseOptionsInt (some opts) = (0, pairs) ∧
      pairs.Perm (entries (mountTable .passwd (some P) none cipher size answers)) := by
  have fit := @passphraseOptionTexts_fit P cipher size answers passphrase known supported
  have noNewline : 10 ∉ opts := by
    rw [← join_fields 44 opts]
    intro inside
    rcases mem_join inside with same | ⟨t, among, inside⟩
    · cases same
    · exact (fit t (given.mem_iff.mp among)).1 inside
  have short : shortTokens opts = fields 44 opts := by
    unfold shortTokens
    rw [tokens_eq_fields noNewline]
    exact List.takeWhile_eq_self_iff.mpr fun t among => decide_eq_true (fit t (given.mem_iff.mp among)).2.1
  have wellFormed : ∀ part ∈ reachedAttributes opts, ¬ Malformed part := by
    intro part among
    unfold reachedAttributes at among
    rw [short] at among
    obtain ⟨t, among, inside⟩ := List.mem_flatMap.mp among
    exact (fit t (given.mem_iff.mp among)).2.2 part inside
  refine ⟨(reachedAttributes opts).map attributePair, ?_, ?_⟩
  · have size := length_options_lt (fun t among => (fit t among).2.1) given
    rw [parseOptionsInt, generateNvListInt_of_lt size, generateNvList_eq]
    unfold readAttributes
    rw [if_neg fun ⟨part, among, malformed⟩ => wellFormed part among malformed,
      List.takeWhile_eq_self_iff.mpr fun part among => decide_eq_true (wellFormed part among)]
  · unfold reachedAttributes
    rw [short]
    exact ((given.flatMap_right attributesOf).map attributePair).trans
      (attributes_pairs passphrase known supported)

/-! ### What the mount helper makes of them -/

theorem contains_of_perm {ts : List CStr} (given : (fields 44 opts).Perm ts) (option : CStr) :
    optsStrContainsOption (some opts) option = ts.any fun t => option.isPrefixOf t := given.any_eq

/-- The options ask for no prompts. -/
theorem contains_verbosity (given : (fields 44 opts).Perm (passphraseOptionTexts P cipher size answers)) :
    optsStrContainsOption (some opts) (lit "verbosity=0") = true := by
  rw [contains_of_perm given, List.any_eq_true]
  exact ⟨assignment (lit "verbosity", lit "0"), by simp [passphraseOptionTexts, plainOptions], by decide⟩

/-- None of them asks for a mount to be changed. -/
theorem not_contains_remount (given : (fields 44 opts).Perm (passphraseOptionTexts P cipher size answers)) :
    optsStrContainsOption (some opts) (lit "remount") = false := by
  rw [contains_of_perm given, List.any_eq_false]
  intro t among
  rcases List.mem_cons.mp among with rfl | among
  · exact Bool.false_ne_true
  · obtain ⟨o, inside, rfl⟩ := List.mem_map.mp among
    have features : ∀ name ∈ ["ecryptfs_passthrough", "ecryptfs_hmac", "ecryptfs_xattr", "ecryptfs_encrypted_view"],
        (lit name).head? = some 101 := by decide
    rcases mem_plainOptions inside with rfl | rfl | rfl | ⟨name, isFeature, yes, rfl⟩
    · exact Bool.false_ne_true
    · exact Bool.false_ne_true
    · exact Bool.false_ne_true
    · have head := features name isFeature
      unfold assignment
      rcases text : lit name with _ | ⟨c, rest⟩
      · rw [text] at head
        cases head
      · rw [text] at head
        obtain rfl := Option.some.inj head
        exact Bool.false_ne_true

/-- The options that stay: the cipher and the size of the key. -/
theorem stay_passphraseOptions (known : cipher ∈ cipherDescriptors)
    (supported : (cipher, size) ∈ supportedKeyBytes) :
    (passphraseOptionTexts P cipher size answers).filter staysOption =
      [assignment (lit "ecryptfs_cipher", lit cipher),
        assignment (lit "ecryptfs_key_bytes", decimalText size)] := by
  have key : staysOption (keyOption P) = false := key_scrubbed ⟨_, rfl⟩
  have ciphers : ∀ name ∈ cipherDescriptors, staysOption (assignment (lit "ecryptfs_cipher", lit name)) = true := by
    decide
  have sizes : ∀ e ∈ supportedKeyBytes,
      staysOption (assignment (lit "ecryptfs_key_bytes", decimalText e.2)) = true := by decide
  have answer : ∀ name ∈ ["ecryptfs_passthrough", "ecryptfs_hmac", "ecryptfs_xattr", "ecryptfs_encrypted_view"],
      ∀ given, ((answerOption name given).map assignment).filter staysOption = [] := by decide
  unfold passphraseOptionTexts plainOptions
  rw [List.filter_cons_of_neg (by rw [key]; exact Bool.false_ne_true)]
  have verbosity : staysOption (assignment (lit "verbosity", lit "0")) = false := by decide
  simp only [List.map_append, List.filter_append, List.map_cons, List.map_nil, List.filter_cons, List.filter_nil,
    verbosity, ciphers cipher known, sizes _ supported, answer "ecryptfs_passthrough" (by simp),
    answer "ecryptfs_hmac" (by simp), answer "ecryptfs_xattr" (by simp), answer "ecryptfs_encrypted_view" (by simp),
    List.append_nil, Bool.false_eq_true, ↓reduceIte]

theorem keptOptions_passphrase (known : cipher ∈ cipherDescriptors) (supported : (cipher, size) ∈ supportedKeyBytes)
    (given : (fields 44 opts).Perm (passphraseOptionTexts P cipher size answers)) :
    (keptOptions opts).Perm [assignment (lit "ecryptfs_cipher", lit cipher),
      assignment (lit "ecryptfs_key_bytes", decimalText size)] := by
  have kept := given.filter staysOption
  rw [stay_passphraseOptions known supported] at kept
  exact kept

/-- The options of the user that reach the mount command. -/
theorem keptSet_passphrase (known : cipher ∈ cipherDescriptors) (supported : (cipher, size) ∈ supportedKeyBytes)
    (given : (fields 44 opts).Perm (passphraseOptionTexts P cipher size answers)) :
    ∃ kept, strippedOpts (some opts) = some (some kept) ∧ ∀ option, option ∈ optionSet kept ↔
      option ∈ [assignment (lit "ecryptfs_cipher", lit cipher),
        assignment (lit "ecryptfs_key_bytes", decimalText size)] := by
  have stay := keptOptions_passphrase known supported given
  have ciphers : ∀ name ∈ cipherDescriptors, ∀ o, o = assignment (lit "ecryptfs_cipher", lit name) →
      o.length < 128 ∧ 0 ∉ o ∧ 44 ∉ o ∧ o ≠ [] := by
    simp only [forall_eq]
    decide
  have sizes : ∀ e ∈ supportedKeyBytes, ∀ o, o = assignment (lit "ecryptfs_key_bytes", decimalText e.2) →
      o.length < 128 ∧ 0 ∉ o ∧ 44 ∉ o ∧ o ≠ [] := by
    simp only [forall_eq]
    decide
  have each : ∀ o ∈ keptOptions opts, o.length < 128 ∧ 0 ∉ o ∧ 44 ∉ o ∧ o ≠ [] := by
    intro o among
    rcases List.mem_cons.mp (stay.mem_iff.mp among) with same | last
    · exact ciphers cipher known o same
    · exact sizes _ supported o (List.mem_singleton.mp last)
  refine ⟨join 44 (keptOptions opts), ?_, fun option => ?_⟩
  · unfold strippedOpts
    dsimp only
    rw [stripUserlandOpts_of_lt fun o among => (each o among).1.trans (by decide), Option.map_some,
      cString_zeros (noNul_join fun o among => (each o among).2.1)]
  · have some_ : keptOptions opts ≠ [] := fun none_ => by
      rw [none_] at stay
      cases stay.length_eq
    unfold optionSet
    rw [Set.mem_ofPred_eq, fields_join some_ fun o among => (each o among).2.2.1, stay.mem_iff]
    exact and_iff_left_of_imp fun among => (each option (stay.mem_iff.mpr among)).2.2.2

/-! ### The parameters of the mount -/

/-- The text that all parameters of a mount begin with. -/
def parameterStart : CStr := lit "ecryptfs_"

/-- A text that has the start of a parameter at its beginning and nowhere else. -/
def StartsOnce (w : CStr) : Prop := parameterStart <+: w ∧ ∀ t ∈ w.tail.tails, ¬ parameterStart <+: t

instance (w : CStr) : Decidable (StartsOnce w) :=
  inferInstanceAs (Decidable (parameterStart <+: w ∧ ∀ t ∈ w.tail.tails, ¬ parameterStart <+: t))

/-- In such a text a parameter can only be found at the beginning. -/
theorem starts_of_inside {val w : CStr} (starts : parameterStart <+: val) (once : StartsOnce w)
    (inside : val <:+: w) : val <+: w := by
  obtain ⟨front, back, rfl⟩ := inside
  cases front with
  | nil => exact List.prefix_append val back
  | cons c front =>
    refine absurd (starts.trans (List.prefix_append val back)) (once.2 (val ++ back) ?_)
    exact (List.mem_tails _ _).mpr ⟨front, (List.append_assoc front val back).symm⟩

/-- The signature does not bring the start of a parameter along. -/
theorem startsOnce_sig {sig : CStr} (digits : ∀ c ∈ sig, c ∈ hexDigits) :
    StartsOnce (lit "ecryptfs_sig=" ++ sig) := by
  refine ⟨⟨lit "sig=" ++ sig, rfl⟩, fun t inside starts => ?_⟩
  obtain ⟨front, cut⟩ := (List.mem_tails _ _).mp inside
  obtain ⟨back, same⟩ := starts
  have at_ : ∀ i, (lit "cryptfs_sig=" ++ sig)[front.length + i]? = (parameterStart ++ back)[i]? := by
    intro i
    have whole : lit "cryptfs_sig=" ++ sig = front ++ (parameterStart ++ back) := by
      rw [same, cut]
      rfl
    rw [whole, List.getElem?_append_right (Nat.le_add_right _ _), Nat.add_sub_cancel_left]
  have underscore : (lit "cryptfs_sig=" ++ sig)[front.length + 8]? = some 95 := at_ 8
  have y : (lit "cryptfs_sig=" ++ sig)[front.length + 3]? = some 121 := at_ 3
  have length : (lit "cryptfs_sig=").length = 12 := by decide
  -- the digits have no `_`, so that there are few places left for the `y`
  have early : front.length < 4 := by
    by_contra late
    rw [List.getElem?_append_right (by omega)] at underscore
    exact absurd (digits _ (List.mem_of_getElem? underscore)) (by decide)
  rw [List.getElem?_append_left (by omega)] at y
  have nowhere : ∀ k < 4, (lit "cryptfs_sig=")[k + 3]? ≠ some 121 := by decide
  exact nowhere _ early y

/-- The character that tells the parameters apart. -/
def kindOf (p : CStr) : Option UInt8 := p[9]?

/-- The parameters of a mount, with the one that is always given. -/
def commandParams (version : UInt32) (cipher : String) (size : ℕ) (answers : FeatureAnswers) (sig : CStr) :
    List CStr :=
  lit "ecryptfs_unlink_sigs" :: (mountParams version cipher size answers sig).filterMap id

variable {version : UInt32} {sig : CStr}

theorem mem_commandParams {p : CStr} (among : p ∈ commandParams version cipher size answers sig) :
    p = lit "ecryptfs_unlink_sigs" ∨ p = lit "ecryptfs_sig=" ++ sig ∨ p = lit "ecryptfs_cipher=" ++ lit cipher ∨
      p = lit "ecryptfs_key_bytes=" ++ decimalText size ∨ ∃ name ∈ featureParameters, p = lit name := by
  rcases List.mem_cons.mp among with first | among
  · exact .inl first
  · obtain ⟨entry, among, same⟩ := List.mem_filterMap.mp among
    obtain rfl : entry = some p := same
    unfold mountParams featureParams at among
    simp only [List.mem_append, List.mem_cons, List.not_mem_nil, or_false] at among
    rcases among with (none_ | sig_ | cipher_ | size_) | among
    · cases none_
    · exact .inr (.inl (Option.some.inj sig_))
    · exact .inr (.inr (.inl (Option.some.inj cipher_)))
    · exact .inr (.inr (.inr (.inl (Option.some.inj size_))))
    · refine .inr (.inr (.inr (.inr ?_)))
      rcases among with ((among | among) | among) | among
      all_goals
        split_ifs at among
        · exact ⟨_, by decide, Option.some.inj (List.mem_singleton.mp among)⟩
        · cases among

/-- The parameter with a character of its own. -/
def ofKind (cipher : String) (size : ℕ) (sig : CStr) : Option UInt8 → CStr
  | some 117 => lit "ecryptfs_unlink_sigs"
  | some 115 => lit "ecryptfs_sig=" ++ sig
  | some 99 => lit "ecryptfs_cipher=" ++ lit cipher
  | some 107 => lit "ecryptfs_key_bytes=" ++ decimalText size
  | some 112 => lit "ecryptfs_passthrough"
  | some 104 => lit "ecryptfs_hmac"
  | some 120 => lit "ecryptfs_xattr_metadata"
  | some 101 => lit "ecryptfs_encrypted_view"
  | _ => []

theorem ofKind_commandParams {p : CStr} (among : p ∈ commandParams version cipher size answers sig) :
    ofKind cipher size sig (kindOf p) = p := by
  rcases mem_commandParams among with rfl | rfl | rfl | rfl | ⟨name, feature, rfl⟩
  · rfl
  · rfl
  · rfl
  · rfl
  · unfold featureParameters at feature
    simp only [List.mem_cons, List.not_mem_nil, or_false] at feature
    rcases feature with rfl | rfl | rfl | rfl <;> rfl

/-- Each parameter begins like all others, and has no comma. -/
theorem commandParams_starts (known : cipher ∈ cipherDescriptors) (supported : (cipher, size) ∈ supportedKeyBytes)
    (digits : ∀ c ∈ sig, c ∈ hexDigits) {p : CStr} (among : p ∈ commandParams version cipher size answers sig) :
    StartsOnce p ∧ 44 ∉ p := by
  have ciphers : ∀ name ∈ cipherDescriptors, StartsOnce (lit "ecryptfs_cipher=" ++ lit name) ∧
      44 ∉ lit "ecryptfs_cipher=" ++ lit name := by decide
  have sizes : ∀ e ∈ supportedKeyBytes, StartsOnce (lit "ecryptfs_key_bytes=" ++ decimalText e.2) ∧
      44 ∉ lit "ecryptfs_key_bytes=" ++ decimalText e.2 := by decide
  have features : ∀ name ∈ featureParameters, StartsOnce (lit name) ∧ 44 ∉ lit name := by decide
  rcases mem_commandParams among with rfl | rfl | rfl | rfl | ⟨name, feature, rfl⟩
  · decide
  · refine ⟨startsOnce_sig digits, fun inside => ?_⟩
    rcases List.mem_append.mp inside with inside | inside
    · exact absurd inside (by decide)
    · exact absurd (digits 44 inside) (by decide)
  · exact ⟨(ciphers cipher known).1, (ciphers cipher known).2⟩
  · exact ⟨(sizes _ supported).1, (sizes _ supported).2⟩
  · exact features name feature

/-- No parameter is a part of another one. -/
theorem commandParams_apart (known : cipher ∈ cipherDescriptors) (supported : (cipher, size) ∈ supportedKeyBytes)
    (digits : ∀ c ∈ sig, c ∈ hexDigits) {p q : CStr} (among : p ∈ commandParams version cipher size answers sig)
    (among' : q ∈ commandParams version cipher size answers sig) (inside : p <:+: q) : p = q := by
  have starts := (commandParams_starts known supported digits among).1
  obtain ⟨rest, rfl⟩ := starts_of_inside starts.1 (commandParams_starts known supported digits among').1 inside
  have long : 9 < p.length := by
    by_contra short
    have absent : kindOf p = none := List.getElem?_eq_none (not_lt.mp short)
    have isText := ofKind_commandParams among
    rw [absent] at isText
    have nothing : p = [] := isText.symm
    rw [nothing] at starts
    exact absurd starts (by decide)
  have same : kindOf p = kindOf (p ++ rest) := (List.getElem?_append_left long).symm
  calc p = ofKind cipher size sig (kindOf p) := (ofKind_commandParams among).symm
    _ = ofKind cipher size sig (kindOf (p ++ rest)) := congrArg _ same
    _ = p ++ rest := ofKind_commandParams among'

/-! ### The mount -/

/-- What the loop takes off a stack whose last entry is the sentinel. -/
theorem mem_poppedFrom {front : List (Option CStr)} (some_ : ∀ e ∈ front, e.isSome = true) {p : CStr} :
    p ∈ poppedFrom (front ++ [none]) ↔ some p ∈ front ∧ p ≠ [] := by
  have taken : (front ++ [none]).takeWhile Option.isSome = front := by
    rw [List.takeWhile_append_of_pos some_]
    simp
  unfold poppedFrom
  rw [taken]
  simp

theorem featureParams_some {e : Option CStr} (among : e ∈ featureParams version answers) : e.isSome = true := by
  unfold featureParams at among
  simp only [List.mem_append] at among
  rcases among with ((among | among) | among) | among
  all_goals
    split_ifs at among
    · rw [List.mem_singleton.mp among]
      rfl
    · cases among

/-- The parameters that the mount helper takes off the stack that the evaluation leaves behind. -/
theorem mem_parameters_mount {p : CStr} (some_ : p ≠ []) :
    p ∈ parameters (mountParams version cipher size answers sig).reverse ↔
      p ∈ commandParams version cipher size answers sig := by
  let front := [param "ecryptfs_sig=" sig, param "ecryptfs_cipher=" (lit cipher),
    param "ecryptfs_key_bytes=" (decimalText size)] ++ featureParams version answers
  have stack : some (lit "ecryptfs_unlink_sigs") :: (mountParams version cipher size answers sig).reverse =
      (some (lit "ecryptfs_unlink_sigs") :: front.reverse) ++ [none] := by
    change _ :: (none :: front).reverse = _
    rw [List.reverse_cons, List.cons_append]
  have present : ∀ e ∈ some (lit "ecryptfs_unlink_sigs") :: front.reverse, e.isSome = true := by
    intro e among
    rcases List.mem_cons.mp among with rfl | among
    · rfl
    · rcases List.mem_append.mp (List.mem_reverse.mp among) with among | among
      · simp only [List.mem_cons, List.not_mem_nil, or_false] at among
        rcases among with rfl | rfl | rfl <;> rfl
      · exact featureParams_some among
  have entry : p ∈ (mountParams version cipher size answers sig).filterMap id ↔ some p ∈ front := by
    change p ∈ (none :: front).filterMap id ↔ _
    simp
  unfold parameters commandParams
  rw [stack, mem_poppedFrom present, and_iff_left some_, List.mem_cons, List.mem_cons, entry, List.mem_reverse]
  exact or_congr_left Option.some_inj

/-- Without the cache nothing is refused. -/
theorem popParameters_noCache (processSig : ℕ → CStr → ℤ) (popped : ℕ) (kept : CStr) (stack : List (Option CStr)) :
    ∃ opts, popParameters false processSig popped (some kept) stack = .ok (some opts) := by
  induction stack generalizing popped kept with
  | nil => exact ⟨kept, rfl⟩
  | cons entry stack ih =>
    cases entry with
    | none => exact ⟨kept, rfl⟩
    | some val =>
      have code : sigCode false processSig popped val = 0 := by simp [sigCode]
      unfold popParameters
      rw [code]
      exact ih (popped + 1) (addOption (some kept) val)

/-- The options that are passed on for a mount with a passphrase. -/
theorem doMount_passphrase (known : cipher ∈ cipherDescriptors) (supported : (cipher, size) ∈ supportedKeyBytes)
    (given : (fields 44 opts).Perm (passphraseOptionTexts P cipher size answers))
    (digits : ∀ c ∈ sig, c ∈ hexDigits) (processSig : ℕ → CStr → ℤ) : ∃ opts',
    doMount false processSig (some opts) (mountParams version cipher size answers sig).reverse = .passed opts' ∧
      optionSet opts' = {p | p ∈ commandParams version cipher size answers sig} := by
  obtain ⟨kept, stripped, stay⟩ := keptSet_passphrase known supported given
  obtain ⟨opts', popped⟩ := popParameters_noCache processSig 0 kept
    (some (lit "ecryptfs_unlink_sigs") :: (mountParams version cipher size answers sig).reverse)
  have starts := fun p (among : p ∈ commandParams version cipher size answers sig) =>
    commandParams_starts known supported digits among
  have nonempty : ∀ p ∈ commandParams version cipher size answers sig, p ≠ [] := by
    rintro p among rfl
    exact absurd (starts [] among).1 (by decide)
  have isParameter : ∀ p, p ∈ parameters (mountParams version cipher size answers sig).reverse →
      p ∈ commandParams version cipher size answers sig := by
    intro p among
    have some_ : p ≠ [] := by
      rintro rfl
      exact absurd (List.mem_filter.mp among).2 (by decide)
    exact (mem_parameters_mount some_).mp among
  have ciphered : lit "ecryptfs_cipher=" ++ lit cipher ∈ commandParams version cipher size answers sig := by
    simp [commandParams, mountParams, param]
  have sized : lit "ecryptfs_key_bytes=" ++ decimalText size ∈ commandParams version cipher size answers sig := by
    simp [commandParams, mountParams, param]
  -- what the user has asked for is asked for by the graph as well
  have keptAmong : ∀ option ∈ optionSet kept, option ∈ commandParams version cipher size answers sig := by
    intro option among
    have among := (stay option).mp among
    simp only [List.mem_cons, List.not_mem_nil, or_false] at among
    rcases among with rfl | rfl
    · exact ciphered
    · exact sized
  have union : optionSet opts' = optionSet kept ∪
      {p | p ∈ parameters (mountParams version cipher size answers sig).reverse} := by
    have whole : ∀ p ∈ parameters (mountParams version cipher size answers sig).reverse, 44 ∉ p :=
      fun p among => (starts p (isParameter p among)).2
    refine (optionsOf_popParameters popped whole).trans ?_
    refine (foldl_eq_iff List.infix_refl List.IsInfix.trans _ _).mpr ?_
    rintro front p back split ⟨w, among, inside⟩
    have member : ∀ q, q ∈ front ∨ q = p → q ∈ commandParams version cipher size answers sig := by
      intro q place
      refine isParameter q ?_
      have split' : parameters (mountParams version cipher size answers sig).reverse = front ++ p :: back := split
      rw [split']
      rcases place with place | rfl
      · exact List.mem_append_left _ place
      · exact List.mem_append_right _ List.mem_cons_self
    have among' : w ∈ commandParams version cipher size answers sig := among.elim
      (fun inFront => member w (.inl inFront)) (keptAmong w)
    obtain rfl := commandParams_apart known supported digits (member p (.inr rfl)) among' inside
    exact among
  have result : optionSet opts' = {p | p ∈ commandParams version cipher size answers sig} := by
    rw [union]
    ext p
    constructor
    · rintro (among | among)
      · exact keptAmong p among
      · exact isParameter p among
    · exact fun among => .inr ((mem_parameters_mount (nonempty p among)).mpr among)
  have valid : validateMountOpts (some opts') = 0 := by
    have among : lit "ecryptfs_key_bytes=" ++ decimalText size ∈ optionSet opts' := result ▸ sized
    refine if_pos (List.all_eq_true.mpr fun option required => ?_)
    rw [List.mem_singleton.mp required]
    refine List.any_eq_true.mpr ⟨_, among.1, ?_⟩
    exact List.isPrefixOf_iff_prefix.mpr (List.prefix_append _ _)
  refine ⟨opts', ?_, result⟩
  unfold doMount
  rw [stripped]
  dsimp only
  rw [popped]
  dsimp only
  rw [valid]
  rfl

section

variable {env : MountEnv} {m : ℕ} {rest : List CStr}

/-- The parameters of a mount with options for a passphrase go to the mount command. -/
theorem mounts_passphrase (known : cipher ∈ cipherDescriptors) (supported : (cipher, size) ∈ supportedKeyBytes)
    (isOption : optionArgument rest = some opts)
    (given : (fields 44 opts).Perm (passphraseOptionTexts P cipher size answers))
    (digits : ∀ c ∈ sig, c ∈ hexDigits) (sys : MountSystem) : ∃ opts',
    optionSet opts' = {p | p ∈ commandParams version cipher size answers sig} ∧
    ∀ prog source target, sys.mounts (prog :: source :: target :: rest)
      (mountParams version cipher size answers sig).reverse = some (sys.ecryptfsMount source target opts') := by
  obtain ⟨opts', passed, isSet⟩ := @doMount_passphrase P opts cipher size answers version sig known supported
    given digits sys.processSig
  refine ⟨opts', isSet, fun prog source target => ?_⟩
  have behind : (prog :: source :: target :: rest).drop 3 = rest := rfl
  have noCache : usesSigCache (some opts) = false := by
    have verbosity := contains_verbosity given
    have quiet : quietOpts (some opts) = some opts := if_neg fun both => both.2 verbosity
    unfold usesSigCache
    rw [quiet, verbosity]
    simp
  unfold MountSystem.mounts
  rw [behind, isOption]
  dsimp only
  rw [noCache, passed]
  change some (mountExit (sys.ecryptfsMount source target opts').1, (sys.ecryptfsMount source target opts').2) = _
  rw [mountExit_ecryptfsMount]

/-- The evaluation of a graph with a passphrase on the command line. -/
theorem processed_passphrase (graph : PassphraseGraph version env m (mods version)) (works : KeyringWorks env)
    (feature : HasFeature version) (passphrase : Passphrase P)
    (noLabel : P ≠ lit "passphrase_salt" ∧ P ≠ lit "default" ∧ P ≠ nullText)
    (known : cipher ∈ cipherDescriptors) (supported : (cipher, size) ∈ supportedKeyBytes)
    (given : (fields 44 opts).Perm (passphraseOptionTexts P cipher size answers)) (rc : ℤ)
    (left : List (Option CStr)) :
    Processed version (mods version) (parseOptionsInt (some opts)).2 inputs rc left ↔
      rc = 0 ∧ left = (mountParams version cipher size answers
        (addPassphraseKey env P (defaultSalt env)).2).reverse := by
  obtain ⟨pairs, parsed, table⟩ := parse_passphraseOptions passphrase known supported given
  rw [parsed]
  exact mount_succeeds graph table known supported noLabel.2.2 (by simp)
    (rfl : PassWay.Gives env P P .passwd) ⟨noLabel.1, fun _ => noLabel.2.1⟩
    (addPassphraseKey_fits works (saltOf env none) passphrase.fits) feature rc left

/-- **A mount with a passphrase.**  When the options on the command line give a passphrase, a cipher with the
size of its key and the answers for the features, in any order, then the helper executes the mount command once
its paths are found, and returns its code; the options of the command are the signature of the passphrase, the
cipher, the size, the features of the version mask with a yes, and the request to unlink the signatures. -/
theorem passphrase_mounts (ready : sys.locks = true ∧ sys.user = true ∧ sys.validateKeyring = 0)
    (isVersion : sys.version.getD versioningPassphrase = version)
    (graph : PassphraseGraph version env m (mods version)) (works : KeyringWorks env)
    (feature : HasFeature version) (passphrase : Passphrase P)
    (noLabel : P ≠ lit "passphrase_salt" ∧ P ≠ lit "default" ∧ P ≠ nullText)
    (known : cipher ∈ cipherDescriptors) (supported : (cipher, size) ∈ supportedKeyBytes)
    (isOption : optionArgument rest = some opts)
    (given : (fields 44 opts).Perm (passphraseOptionTexts P cipher size answers)) : ∃ opts',
    optionSet opts' = {p | p ∈ commandParams version cipher size answers
      (addPassphraseKey env P (defaultSalt env)).2} ∧
    ∀ prog source target rc command,
      MountMain sys mods [] inputs (prog :: source :: target :: rest) rc command ↔
        sys.ecryptfsMount source target opts' = (rc, command) := by
  have digits := (addPassphraseKey_fits works (defaultSalt env) passphrase.fits).2
  obtain ⟨opts', isSet, mounted⟩ := @mounts_passphrase P opts cipher size answers version _ rest known supported
    isOption given digits sys
  refine ⟨opts', isSet, fun prog source target rc command => ?_⟩
  have processed := @processed_passphrase mods inputs P opts cipher size answers version env m graph works feature
    passphrase noLabel known supported given
  subst isVersion
  rw [mountMain_iff ready isOption (contains_verbosity given) (not_contains_remount given) processed prog,
    mounted prog source target, Option.some_inj]

end

/-! ### A mount -/

/-- A system in which the mount command succeeds. -/
def plainSystem : MountSystem where
  locks := true
  user := true
  version := some 0x5
  validateKeyring := 0
  processSig := fun _ _ => 0
  realpath := fun path => .ok path
  child := fun _ => .exited 0

def passphraseOptionLine : CStr :=
  lit "verbosity=0,key=passphrase:passphrase_passwd=secret" ++
    lit ",ecryptfs_cipher=aes,ecryptfs_key_bytes=16,ecryptfs_passthrough=y"

theorem passphraseOptionLine_given : (fields 44 passphraseOptionLine).Perm
    (passphraseOptionTexts (lit "secret") "aes" 16 ⟨some true, none, none, none⟩) := by
  decide

theorem passphrase_mounts_plain : ∃ opts,
    optionSet opts = {p | p ∈ commandParams 0x5 "aes" 16 ⟨some true, none, none, none⟩
      (addPassphraseKey plainEnv (lit "secret") (defaultSalt plainEnv)).2} ∧
    MountMain plainSystem (fun _ => [passphraseModule plainEnv 0]) [] []
      [lit "mount.ecryptfs", lit "/lower", lit "/upper", lit "-o", passphraseOptionLine] 0
      (some (mountCommand (lit "/lower") (lit "/upper") opts)) := by
  obtain ⟨opts, isSet, mounts⟩ := @passphrase_mounts plainSystem (fun _ => [passphraseModule plainEnv 0]) []
    (lit "secret") passphraseOptionLine "aes" 16 ⟨some true, none, none, none⟩ 0x5 plainEnv 0
    [lit "-o", passphraseOptionLine] ⟨rfl, rfl, rfl⟩ rfl (passphraseGraph_only rfl plainEnv) keyringWorks_plain
    ⟨versioningPlaintextPassthrough, by decide, rfl⟩ passphrase_secret (by decide) (by decide) (by decide) rfl
    passphraseOptionLine_given
  exact ⟨opts, isSet, (mounts _ _ _ _ _).mpr rfl⟩

/-! ## Any run -/

variable {rcFile : List NameValPair} {argv command : List CStr} {rc : ℤ}

/-- What a parameter adds to the options, also one with commas in it. -/
theorem optionSet_addOption_subset (temp : Option CStr) (val : CStr) :
    optionSet (addOption temp val) ⊆ optionsOf temp ∪ optionSet val := by
  cases temp with
  | none => exact fun option among => .inr among
  | some temp =>
    unfold addOption
    dsimp only
    split_ifs
    · exact fun option among => .inl among
    · exact fun option among => .inr among
    · rintro option ⟨among, nonempty⟩
      rw [fields_append, List.mem_append] at among
      rcases among with inVal | inTemp
      · exact .inr ⟨inVal, nonempty⟩
      · exact .inl ⟨inTemp, nonempty⟩

theorem optionsOf_popParameters_subset {sigCache : Bool} {processSig : ℕ → CStr → ℤ} {popped : ℕ}
    {newOpts opts : Option CStr} {stack : List (Option CStr)}
    (ok : popParameters sigCache processSig popped newOpts stack = .ok opts) :
    ∀ option ∈ optionsOf opts, option ∈ optionsOf newOpts ∨ ∃ p, some p ∈ stack ∧ option ∈ optionSet p := by
  induction stack generalizing popped newOpts with
  | nil =>
    obtain rfl := Except.ok.inj ok
    exact fun option among => .inl among
  | cons entry stack ih =>
    cases entry with
    | none =>
      obtain rfl := Except.ok.inj ok
      exact fun option among => .inl among
    | some val =>
      rw [popParameters] at ok
      split_ifs at ok
      intro option among
      rcases ih ok option among with before | ⟨p, inStack, inside⟩
      · rcases optionSet_addOption_subset newOpts val before with before | inside
        · exact .inl before
        · exact .inr ⟨val, List.mem_cons_self, inside⟩
      · exact .inr ⟨p, List.mem_cons_of_mem _ inStack, inside⟩

theorem confined_both : Confined bothModules := by
  refine ⟨fun g registered => ?_, fun g registered => ?_, fun m c n nvps w code w' isModule h modules => ?_,
    fun g registered m c isFunc nvps w code w' h modules => ?_⟩
  · rcases List.mem_pair.mp registered with rfl | rfl
    · exact ⟨⟨_, rfl⟩, ⟨_, rfl, 0, 0, rfl⟩, fun f isFunc => by cases isFunc⟩
    · exact ⟨⟨_, rfl⟩, ⟨_, rfl, 1, 0, rfl⟩, fun f isFunc => ⟨1, 0, (Option.some.inj isFunc).symm⟩⟩
  · rcases List.mem_pair.mp registered with rfl | rfl
    · exact passphraseNode_module
    · exact sslNode_module _ 1
  · exact (moduleCall_onlyVal modelled_both h).confined isModule modules
  · rcases List.mem_pair.mp registered with rfl | rfl
    · cases isFunc
    · obtain ⟨rfl, rfl⟩ := Callback.mod.inj (Option.some.inj isFunc)
      have same := tfOpensslEnter_nodes
        (show tfOpensslEnter [lit "passphrase", lit "openssl"] .select w = .ok (code, w') from h)
      refine ⟨fun m k => ?_, fun n _ => congrFun same n⟩
      rw [same]
      exact modules m k

theorem passphraseGraph_both : PassphraseGraph 0x5 plainEnv 0 bothModules := by
  refine ⟨rfl, confined_both, rfl, fun i low => absurd low (Nat.not_lt_zero i), ?_,
    fun g registered l isLabel way => ?_⟩
  · exact (by decide : 2 ≤ maxNumTransitions)
  · rcases List.mem_pair.mp registered with rfl | rfl
    · obtain rfl := Option.some.inj isLabel
      cases way <;> decide
    · obtain rfl := Option.some.inj isLabel
      cases way <;> decide

end Ecryptfs
