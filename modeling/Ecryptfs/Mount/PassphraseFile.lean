import Ecryptfs.Mount.MountOptions
import Ecryptfs.Options.Reading

/-!
# A passphrase and a file that holds it

The same passphrase is given by its text and by a file.  Both mounts push the same signature as long as
neither the passphrase nor the path is taken for the label of a transition and the buffer of the file has a
zero byte behind its contents; with a salt in the list the file is not read in time.
-/

namespace Ecryptfs

variable {version : UInt32} {mods : List GraphModule} {opts : List NameValPair}
  {inputs : List (Except {rc : ℤ // rc < 0} CStr)} {env : MountEnv} {m : ℕ} {way : PassWay}
  {salt : Option CStr} {cipher : String} {size : ℕ} {answers : FeatureAnswers}

/-- The mount graph is evaluated with success, and the only signature that it pushes is `sig`. -/
def Pushes (version : UInt32) (mods : List GraphModule) (opts : List NameValPair)
    (inputs : List (Except {rc : ℤ // rc < 0} CStr)) (sig : CStr) : Prop :=
  ∃ stack, Processed version mods opts inputs 0 stack ∧ signatures stack = [param "ecryptfs_sig=" sig]

/-! ## The signatures of a mount -/

theorem signatures_features (version : UInt32) (answers : FeatureAnswers) :
    signatures (featureParams version answers) = [] := by
  have single : ∀ (shown : Prop) [Decidable shown], ∀ param ∈ ["ecryptfs_passthrough",
      "ecryptfs_hmac", "ecryptfs_xattr_metadata", "ecryptfs_encrypted_view"],
      signatures (if shown then [some (lit param)] else []) = [] := by
    intro shown _ param among
    have table : ∀ param ∈ ["ecryptfs_passthrough", "ecryptfs_hmac", "ecryptfs_xattr_metadata",
        "ecryptfs_encrypted_view"], isSignature (some (lit param)) = false := by decide
    split
    · rw [signatures_pushed (table param among)]
      rfl
    · rfl
  unfold featureParams
  simp only [signatures, List.filter_append] at single ⊢
  rw [single _ _ (by simp), single _ _ (by simp), single _ _ (by simp), single _ _ (by simp)]
  rfl

theorem signatures_params (sig : CStr) :
    signatures (mountParams version cipher size answers sig).reverse = [param "ecryptfs_sig=" sig] := by
  have pushed : signatures [none, param "ecryptfs_sig=" sig, param "ecryptfs_cipher=" (lit cipher),
      param "ecryptfs_key_bytes=" (decimalText size)] = [param "ecryptfs_sig=" sig] := by
    rw [signatures_cons, signatures_cons, isSignature_sig, signatures_cons, isSignature_cipher,
      signatures_cons, isSignature_keyBytes]
    rfl
  have features := signatures_features version answers
  unfold mountParams
  unfold signatures at pushed features ⊢
  rw [List.filter_reverse, List.filter_append, pushed, features]
  rfl

/-- A mount whose passphrase gives a key pushes the signature of the key. -/
theorem mount_pushes (graph : PassphraseGraph version env m mods) (works : KeyringWorks env) {v P : CStr}
    (given : opts.Perm (entries (mountTable way (some v) salt cipher size answers)))
    (known : cipher ∈ cipherDescriptors) (supported : (cipher, size) ∈ supportedKeyBytes)
    (real : v ≠ nullText) (realSalt : salt ≠ some nullText ∧ salt ≠ some (lit "default"))
    (gives : way.Gives env v P) (leads : way.Leads v salt) (fits : P.length ≤ maxPassphraseBytes)
    (feature : HasFeature version) :
    Pushes version mods opts inputs (addPassphraseKey env P (saltOf env salt)).2 :=
  ⟨_, (mount_succeeds graph given known supported real realSalt gives leads
    (addPassphraseKey_fits works (saltOf env salt) fits) feature 0 _).mpr ⟨rfl, rfl⟩,
    signatures_params _⟩

theorem not_pushes_of_ends {names : List CStr} {q : CStr → List (Option CStr)} {code : ℤ}
    {w' : MountWorld} (listed : Listed opts names q)
    (ends : Ends (mountCall (moduleCalls mods)) names .root (startWorld version mods) q code w')
    (unsigned : evalResult code = 0 → signatures w'.stack = []) (sig : CStr) :
    ¬ Pushes version mods opts inputs sig := by
  rintro ⟨stack, processed, signed⟩
  obtain ⟨zero, rfl⟩ := (processed_iff listed ends 0 stack).mp processed
  rw [unsigned zero] at signed
  cases signed

/-! ## Mounts that push no signature -/

section

variable (graph : PassphraseGraph version env m mods) {v P : CStr}
  (given : opts.Perm (entries (mountTable way (some v) salt cipher size answers)))

include graph given

/-- The text of a null pointer is no value. -/
theorem not_pushes_null (null : v = nullText) (sig : CStr) : ¬ Pushes version mods opts inputs sig := by
  have noValue : realValue (some (printed (some v))) = none := by
    rw [null]
    rfl
  have ends := (mount_type graph given).ends (source_ends_null (listed_mount given).once graph.module
    (mount_passGiven given) noValue)
  refine not_pushes_of_ends (listed_mount given) ends (fun zero => ?_) sig
  refine absurd zero ?_
  cases way <;> decide

theorem not_pushes_noFeature (works : KeyringWorks env) (known : cipher ∈ cipherDescriptors)
    (supported : (cipher, size) ∈ supportedKeyBytes) (real : v ≠ nullText)
    (realSalt : salt ≠ some nullText ∧ salt ≠ some (lit "default")) (gives : way.Gives env v P)
    (leads : way.Leads v salt) (fits : P.length ≤ maxPassphraseBytes)
    (noFeature : ¬ HasFeature version) (sig : CStr) : ¬ Pushes version mods opts inputs sig := by
  rintro ⟨stack, processed, -⟩
  exact mount_fails graph given known supported real realSalt gives leads
    (addPassphraseKey_fits works (saltOf env salt) fits) noFeature stack processed

end

/-- A passphrase that is a label is put on the stack, and the evaluation ends. -/
theorem not_pushes_label (graph : PassphraseGraph version env m mods) {P : CStr}
    (given : opts.Perm (entries (mountTable .passwd (some P) salt cipher size answers)))
    (real : P ≠ nullText) (isLabel : ¬ PassWay.Leads P salt .passwd) (sig : CStr) :
    ¬ Pushes version mods opts inputs sig := by
  have ends := (mount_type graph given).ends (source_ends_label graph.module (entered_fresh graph)
    (mount_passGiven given) real isLabel)
  refine not_pushes_of_ends (listed_mount given) ends (fun _ => ?_) sig
  have label : P = lit "passphrase_salt" ∨ P = lit "default" := by
    by_contra neither
    rw [not_or] at neither
    exact isLabel ⟨neither.1, fun _ => neither.2⟩
  change signatures [some P, none] = []
  rcases label with rfl | rfl <;> decide

/-- With a salt in the list the file is read for nothing. -/
theorem not_pushes_salted (graph : PassphraseGraph version env m mods) {F P s : CStr}
    (given : opts.Perm (entries (mountTable .file (some F) (some s) cipher size answers)))
    (real : F ≠ nullText) (gives : PassWay.Gives env F P .file) (noLabel : F ≠ lit "passphrase_salt")
    (sig : CStr) : ¬ Pushes version mods opts inputs sig := by
  have ends := (mount_type graph given).ends (source_ends_salted (listed_mount given).once graph.module
    (entered_fresh graph) (mount_passGiven given) real gives noLabel)
  exact not_pushes_of_ends (listed_mount given) ends (fun zero => absurd zero (by decide)) sig

/-! ## Both ways -/

/-- A passphrase that can stand on a line and in an option list. -/
structure Passphrase (P : CStr) : Prop where
  some_ : P ≠ []
  fits : P.length ≤ maxPassphraseBytes
  clean : ∀ c ∈ P, c ≠ 44 ∧ c ≠ 58 ∧ c ≠ 61 ∧ c ≠ 10

theorem Passphrase.line {P : CStr} (passphrase : Passphrase P) :
    OptionLine (lit "passphrase_passwd") P := by
  have name : ∀ c ∈ lit "passphrase_passwd", c ≠ 44 ∧ c ≠ 58 ∧ c ≠ 61 ∧ c ≠ 10 := by
    decide +kernel
  have all : ∀ c ∈ lit "passphrase_passwd" ++ P, c ≠ 44 ∧ c ≠ 58 ∧ c ≠ 61 ∧ c ≠ 10 := by
    intro c among
    rcases List.mem_append.mp among with inName | inValue
    · exact name c inName
    · exact passphrase.clean c inValue
  refine ⟨by decide, ?_, fun c among => ⟨(all c among).1, (all c among).2.2.2⟩,
    fun among => (all _ among).2.1 rfl, fun among => (all _ among).2.2.1 rfl⟩
  have short : (lit "passphrase_passwd").length = 17 := by decide
  have fits := passphrase.fits
  rw [List.length_append, List.length_cons, short]
  unfold maxPassphraseBytes at fits
  unfold maxTokLen
  omega

/-- The values with which both mounts push the signature of the passphrase: they are no text of a null
pointer, the passphrase is not taken for a label, and the file is read in time. -/
structure BothLead (P F : CStr) (salt : Option CStr) : Prop where
  passwd : P ≠ nullText
  file : F ≠ nullText
  noSalt : P ≠ lit "passphrase_salt"
  noDefault : salt = none → P ≠ lit "default"
  inTime : salt ≠ none → F = lit "passphrase_salt"

/-- The environment in which reading the file `F` gives `result`. -/
def MountEnv.reading (env : MountEnv) (F : CStr) (result : ℤ × List NameValPair) : MountEnv :=
  { env with passFile := Function.update env.passFile F result }

theorem KeyringWorks.reading (works : KeyringWorks env) (F : CStr) (result : ℤ × List NameValPair) :
    KeyringWorks (env.reading F result) := ⟨works.hashOk, works.added⟩

/-- A file with the line of the passphrase gives it when it is parsed as its text. -/
theorem gives_reading {P F text : CStr} (passphrase : Passphrase P) (file : PassText P text) :
    PassWay.Gives (env.reading F (generateNvListInt text)) F P .file := by
  obtain ⟨list, parsed, found⟩ := passText_read passphrase.some_ passphrase.line file
  refine ⟨list, ?_, found⟩
  rw [← parsed]
  exact Function.update_self F _ env.passFile

/-- What a file with a passphrase is read as gives the same signature as the passphrase exactly when the version
mask has a feature and the values lead through the passphrase module. -/
theorem bothPush_iff {P F : CStr} {opts' : List NameValPair}
    {inputs' : List (Except {rc : ℤ // rc < 0} CStr)} {cipher' : String} {size' : ℕ}
    {answers' : FeatureAnswers} (graph : PassphraseGraph version env m mods) (works : KeyringWorks env)
    (passphrase : Passphrase P) (sixteen : ∀ s, salt = some s → s.length = 16)
    (gives : PassWay.Gives env F P .file)
    (known : cipher ∈ cipherDescriptors) (supported : (cipher, size) ∈ supportedKeyBytes)
    (known' : cipher' ∈ cipherDescriptors) (supported' : (cipher', size') ∈ supportedKeyBytes)
    (byText : opts.Perm (entries (mountTable .passwd (some P) salt cipher size answers)))
    (byFile : opts'.Perm (entries (mountTable .file (some F) salt cipher' size' answers'))) :
    (∃ sig, Pushes version mods opts inputs sig ∧ Pushes version mods opts' inputs' sig) ↔
      HasFeature version ∧ BothLead P F salt := by
  have realSalt : salt ≠ some nullText ∧ salt ≠ some (lit "default") := by
    refine ⟨fun same => ?_, fun same => ?_⟩
    · exact absurd (sixteen _ same) (by decide)
    · exact absurd (sixteen _ same) (by decide)
  constructor
  · rintro ⟨sig, pushes, pushes'⟩
    have passwd : P ≠ nullText := fun null => not_pushes_null graph byText null sig pushes
    have fileReal : F ≠ nullText := fun null => not_pushes_null graph byFile null sig pushes'
    have leads : PassWay.Leads P salt .passwd := by
      by_contra isLabel
      exact not_pushes_label graph byText passwd isLabel sig pushes
    have feature : HasFeature version := by
      by_contra noFeature
      exact not_pushes_noFeature graph byText works known supported passwd realSalt
        (rfl : PassWay.Gives env P P .passwd) leads passphrase.fits noFeature sig pushes
    refine ⟨feature, passwd, fileReal, leads.1, leads.2, fun salted => ?_⟩
    obtain ⟨s, rfl⟩ := Option.ne_none_iff_exists'.mp salted
    by_contra noLabel
    exact not_pushes_salted graph byFile fileReal gives noLabel sig pushes'
  · rintro ⟨feature, both⟩
    have leads : PassWay.Leads F salt .file := by
      by_cases salted : salt = none
      · exact .inl salted
      · exact .inr (both.inTime salted)
    exact ⟨_, mount_pushes graph works byText known supported both.passwd realSalt
      (rfl : PassWay.Gives env P P .passwd) ⟨both.noSalt, both.noDefault⟩ passphrase.fits feature,
      mount_pushes graph works byFile known' supported' both.file realSalt gives leads passphrase.fits
        feature⟩

/-- **A passphrase and a file that holds it** give the same signature, whatever else is left in the buffer that
the file is read into, exactly when the version mask has a feature, the values lead through the passphrase
module and the first byte behind the contents of the file is zero. -/
theorem sameSignature_iff {P F : CStr} {chunks : List CStr} {kind : FileKind} {bufSize : ℕ}
    {mods : ℤ × List NameValPair → List GraphModule} {opts' : List NameValPair}
    {inputs' : List (Except {rc : ℤ // rc < 0} CStr)} {cipher' : String} {size' : ℕ}
    {answers' : FeatureAnswers}
    (graph : ∀ result, PassphraseGraph version (env.reading F result) m (mods result))
    (works : KeyringWorks env) (passphrase : Passphrase P) (sixteen : ∀ s, salt = some s → s.length = 16)
    (readable : Readable chunks kind bufSize) (file : PassText P chunks.flatten)
    (known : cipher ∈ cipherDescriptors) (supported : (cipher, size) ∈ supportedKeyBytes)
    (known' : cipher' ∈ cipherDescriptors) (supported' : (cipher', size') ∈ supportedKeyBytes)
    (byText : opts.Perm (entries (mountTable .passwd (some P) salt cipher size answers)))
    (byFile : opts'.Perm (entries (mountTable .file (some F) salt cipher' size' answers'))) (b : UInt8) :
    (∀ heap, byteBehind heap chunks bufSize = some b →
      ∃ result, parseOptionsFd heap (fun _ => true) (some kind) (chunks.map .bytes) = some result ∧
        ∃ sig, Pushes version (mods result) opts inputs sig ∧ Pushes version (mods result) opts' inputs' sig) ↔
      HasFeature version ∧ BothLead P F salt ∧ b = 0 := by
  have pushes : (∃ sig, Pushes version (mods (generateNvListInt chunks.flatten)) opts inputs sig ∧
      Pushes version (mods (generateNvListInt chunks.flatten)) opts' inputs' sig) ↔
      HasFeature version ∧ BothLead P F salt :=
    bothPush_iff (graph (generateNvListInt chunks.flatten)) (works.reading F _) passphrase sixteen
      (gives_reading passphrase file) known supported known' supported' byText byFile
  constructor
  · intro same
    have zero : b = 0 := by
      by_contra nonzero
      obtain ⟨result, read, -⟩ := same (evenHeap b) (byteBehind_evenHeap b chunks bufSize)
      rw [parseOptionsFd_evenHeap readable nonzero] at read
      cases read
    subst zero
    have behind := byteBehind_evenHeap 0 chunks bufSize
    obtain ⟨result, read, both⟩ := same (evenHeap 0) behind
    rw [parseOptionsFd_zero readable behind] at read
    obtain rfl := Option.some.inj read
    obtain ⟨feature, lead⟩ := pushes.mp both
    exact ⟨feature, lead, rfl⟩
  · rintro ⟨feature, lead, rfl⟩ heap behind
    exact ⟨_, parseOptionsFd_zero readable behind, pushes.mpr ⟨feature, lead⟩⟩

/-! ## A file on a stick -/

/-- The text of a file with a passphrase. -/
def stickText : CStr := lit "passphrase_passwd=secret\n"

/-- The file, which is read in one piece. -/
theorem readable_stick : Readable [stickText] (.other 25) 25 := by
  have whole : [stickText].flatten = stickText := List.flatten_singleton
  have size : stickText.length = 25 := by decide
  refine ⟨.inr ?_, ⟨by decide, by decide, trivial⟩, by decide, by decide⟩
  rw [whole, size]
  exact ⟨rfl, rfl⟩

theorem passText_stick : PassText (lit "secret") [stickText].flatten := by
  refine ⟨by decide, [], [[]], by decide, fun line among => ?_⟩
  rw [List.mem_singleton.mp among]
  exact .inl rfl

theorem passphrase_secret : Passphrase (lit "secret") :=
  ⟨by decide, by decide, by decide +kernel⟩

/-- The only module is the passphrase module, which reads the file as `result`. -/
def stickModules (result : ℤ × List NameValPair) : List GraphModule :=
  [passphraseModule (plainEnv.reading (lit "/mnt/stick/pass") result) 0]

/-- The options of a mount by the given way, without answers for the features. -/
def stickOptions (way : PassWay) (value : CStr) (salt : Option CStr) : List NameValPair :=
  entries (mountTable way (some value) salt "aes" 16 ⟨none, none, none, none⟩)

/-- Without a salt both mounts push the same signature. -/
theorem sameSignature_stick :
    ∃ result, parseOptionsFd (evenHeap 0) (fun _ => true) (some (.other 25)) [.bytes stickText] = some result ∧
      ∃ sig, Pushes 0x5 (stickModules result) (stickOptions .passwd (lit "secret") none) [] sig ∧
        Pushes 0x5 (stickModules result) (stickOptions .file (lit "/mnt/stick/pass") none).reverse [] sig := by
  have byText : (stickOptions .passwd (lit "secret") none).Perm
      (stickOptions .passwd (lit "secret") none) := .refl _
  have byFile : (stickOptions .file (lit "/mnt/stick/pass") none).reverse.Perm
      (stickOptions .file (lit "/mnt/stick/pass") none) := List.reverse_perm _
  have lead : BothLead (lit "secret") (lit "/mnt/stick/pass") none :=
    ⟨by decide, by decide, by decide, fun _ => by decide, fun some_ => absurd rfl some_⟩
  exact (sameSignature_iff (fun result => passphraseGraph_only rfl (plainEnv.reading _ result))
    keyringWorks_plain passphrase_secret (fun s none_ => by cases none_) readable_stick passText_stick
    (by decide) (by decide) (by decide) (by decide) byText byFile 0).mpr
      ⟨⟨versioningPlaintextPassthrough, by decide, rfl⟩, lead, rfl⟩ (evenHeap 0)
      (byteBehind_evenHeap 0 _ 25)

/-- With a salt the mount by the file fails, although a zero byte is behind the contents of the file. -/
theorem salted_file_fails :
    (∀ result, PassphraseGraph 0x5 (plainEnv.reading (lit "/mnt/stick/pass") result) 0 (stickModules result)) ∧
    KeyringWorks plainEnv ∧ Passphrase (lit "secret") ∧ Readable [stickText] (.other 25) 25 ∧
    PassText (lit "secret") [stickText].flatten ∧
    ∃ result, parseOptionsFd (evenHeap 0) (fun _ => true) (some (.other 25)) [.bytes stickText] = some result ∧
      ∀ sig, ¬ Pushes 0x5 (stickModules result)
        (stickOptions .file (lit "/mnt/stick/pass") (some (lit "0123456789abcdef"))) [] sig := by
  have given : (stickOptions .file (lit "/mnt/stick/pass") (some (lit "0123456789abcdef"))).Perm
      (stickOptions .file (lit "/mnt/stick/pass") (some (lit "0123456789abcdef"))) := .refl _
  have read := parseOptionsFd_zero readable_stick (byteBehind_evenHeap 0 _ 25)
  exact ⟨fun result => passphraseGraph_only rfl _, keyringWorks_plain, passphrase_secret, readable_stick,
    passText_stick, _, read, not_pushes_salted (passphraseGraph_only rfl _) given (by decide)
      (gives_reading passphrase_secret passText_stick) (by decide)⟩

end Ecryptfs
