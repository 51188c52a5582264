import Ecryptfs.Mount.Tail
import Mathlib.Data.List.TakeWhile

/-!
# Limits of the key size

The key modules put limits of the key size on the stack, and `tf_ecryptfs_cipher` takes them off again
and offers the sizes between them.  The loop passes over the entry behind each limit that it takes off,
and of several limits of one kind it keeps the last one: `limitsApplied_iff` says for which stacks all
limits are applied.
-/

namespace Ecryptfs

/-- An entry of the stack that sets the largest key size. -/
def isMax (v : CStr) : Bool := (lit "max_key_bytes=").isPrefixOf v

/-- An entry of the stack that sets the smallest key size. -/
def isMin (v : CStr) : Bool := (lit "min_key_bytes=").isPrefixOf v

def isLimit (v : CStr) : Bool := isMax v || isMin v

/-- An entry that the loop takes off the stack if it comes to it: the text of a limit is in it. -/
def mentionsLimit (v : CStr) : Bool :=
  strstr v (lit "max_key_bytes=") || strstr v (lit "min_key_bytes=")

/-- The number behind the `=` of a limit. -/
def limitText (v : CStr) : CStr := v.drop 14

def limitValue (v : CStr) : ℕ := decimal 0 (limitText v)

/-- The limits of a stack are decimal numbers. -/
def DecimalLimits (entries : List CStr) : Prop :=
  ∀ v ∈ entries, isLimit v = true → limitText v ≠ [] ∧ ∀ c ∈ limitText v, isDigit c = true

/-- The entries that the loop leaves on the stack. -/
def entriesLeft : List CStr → List CStr
  | [] => []
  | v :: rest =>
    if mentionsLimit v then
      match rest with
      | [] => []
      | u :: rest => u :: entriesLeft rest
    else v :: entriesLeft rest

/-- What has to be of an entry and the next one, for the loop to take exactly the limits off: behind a
limit there is no other one, and everywhere else only a limit mentions one. -/
def NextRead (u v : CStr) : Prop :=
  if isLimit u then isLimit v = false else mentionsLimit v = true → isLimit v = true

/-- The last limit of a kind in a stack, as `strtol` reads it. -/
def lastLimit (kind : CStr → Bool) (limit : ℤ) (entries : List CStr) : ℤ :=
  entries.foldl (fun limit v => if kind v then min (2 ^ 63 - 1) (limitValue v : ℤ) else limit) limit

/-! ## Entries -/

/-- A text that contains another one contains its characters. -/
theorem mem_of_strstr {haystack needle : CStr} (occurs : strstr haystack needle = true) {c : UInt8}
    (among : c ∈ needle) : c ∈ haystack :=
  (strstr_iff.mp occurs).subset among

theorem strstr_of_isPrefixOf {haystack needle : CStr} (isPrefix : needle.isPrefixOf haystack = true) :
    strstr haystack needle = true :=
  strstr_iff.mpr (List.isPrefixOf_iff_prefix.mp isPrefix).isInfix

theorem mentionsLimit_of_isLimit {v : CStr} (limit : isLimit v = true) : mentionsLimit v = true := by
  unfold isLimit at limit
  unfold mentionsLimit
  rw [Bool.or_eq_true] at limit ⊢
  exact limit.imp strstr_of_isPrefixOf strstr_of_isPrefixOf

/-- What the loop reads of a limit. -/
theorem keyBytesLimit_self {kind : String} {v : CStr} (isKind : (lit kind).isPrefixOf v = true)
    (size : (lit kind).length = 14) (last : ∀ text, afterChar 61 (lit kind ++ text) = some text)
    (some_ : limitText v ≠ []) (digits : ∀ c ∈ limitText v, isDigit c = true) :
    keyBytesLimit kind v = .ok (some (min (2 ^ 63 - 1) (limitValue v : ℤ))) := by
  have occurs := strstr_of_isPrefixOf isKind
  obtain ⟨text, rfl⟩ := List.isPrefixOf_iff_prefix.mp isKind
  have rest : limitText (lit kind ++ text) = text := List.drop_left' size
  rw [rest] at some_ digits
  obtain ⟨c, s, rfl⟩ := List.exists_cons_of_ne_nil some_
  unfold keyBytesLimit
  rw [if_pos occurs, last]
  dsimp only
  rw [strtol_digit (digits c List.mem_cons_self), limitValue, rest]

/-- A limit of one kind is none of the other one. -/
theorem keyBytesLimit_other {kind other : String} {v : CStr} (isKind : (lit kind).isPrefixOf v = true)
    (size : (lit kind).length = 14) (digits : ∀ c ∈ limitText v, isDigit c = true) {c : UInt8}
    (inside : c ∈ lit other) (outside : c ∉ lit kind) (noDigit : isDigit c = false) :
    strstr v (lit other) = false := by
  obtain ⟨text, rfl⟩ := List.isPrefixOf_iff_prefix.mp isKind
  have rest : limitText (lit kind ++ text) = text := List.drop_left' size
  rw [rest] at digits
  rw [Bool.eq_false_iff]
  intro occurs
  rcases List.mem_append.mp (mem_of_strstr occurs inside) with inKind | inText
  · exact outside inKind
  · rw [digits c inText] at noDigit
    cases noDigit

/-- The two limits that the loop reads of an entry. -/
def limitsOf (v : CStr) : Except ℤ (Option ℤ) × Except ℤ (Option ℤ) :=
  (keyBytesLimit "max_key_bytes=" v, keyBytesLimit "min_key_bytes=" v)

theorem limitsOf_isMax {v : CStr} (limit : isMax v = true) (some_ : limitText v ≠ [])
    (digits : ∀ c ∈ limitText v, isDigit c = true) :
    limitsOf v = (.ok (some (min (2 ^ 63 - 1) (limitValue v : ℤ))), .ok none) ∧ isMin v = false := by
  have absent : strstr v (lit "min_key_bytes=") = false :=
    keyBytesLimit_other (c := 105) limit (by decide) digits (by decide) (by decide) (by decide)
  have unlimited : keyBytesLimit "min_key_bytes=" v = .ok none := by
    rw [keyBytesLimit, absent]
    rfl
  refine ⟨?_, ?_⟩
  · rw [limitsOf, keyBytesLimit_self limit (by decide) (fun text => rfl) some_ digits, unlimited]
  · rw [Bool.eq_false_iff]
    exact fun isMin => Bool.eq_false_iff.mp absent (strstr_of_isPrefixOf isMin)

theorem limitsOf_isMin {v : CStr} (limit : isMin v = true) (some_ : limitText v ≠ [])
    (digits : ∀ c ∈ limitText v, isDigit c = true) :
    limitsOf v = (.ok none, .ok (some (min (2 ^ 63 - 1) (limitValue v : ℤ)))) ∧ isMax v = false := by
  have absent : strstr v (lit "max_key_bytes=") = false :=
    keyBytesLimit_other (c := 97) limit (by decide) digits (by decide) (by decide) (by decide)
  have unlimited : keyBytesLimit "max_key_bytes=" v = .ok none := by
    rw [keyBytesLimit, absent]
    rfl
  refine ⟨?_, ?_⟩
  · rw [limitsOf, keyBytesLimit_self limit (by decide) (fun text => rfl) some_ digits, unlimited]
  · rw [Bool.eq_false_iff]
    exact fun isMax => Bool.eq_false_iff.mp absent (strstr_of_isPrefixOf isMax)

theorem limitsOf_none {v : CStr} (plain : mentionsLimit v = false) :
    limitsOf v = (.ok none, .ok none) := by
  rw [mentionsLimit, Bool.or_eq_false_iff] at plain
  rw [limitsOf, keyBytesLimit, keyBytesLimit, plain.1, plain.2]
  rfl

/-- An entry that mentions a limit is taken off, or ends the loop. -/
theorem limitsOf_mentions {v : CStr} (mentions : mentionsLimit v = true) :
    limitsOf v ≠ (.ok none, .ok none) := by
  have none_ : ∀ kind, 61 ∈ lit kind → keyBytesLimit kind v = .ok none → strstr v (lit kind) = false := by
    intro kind eq_ unlimited
    rw [Bool.eq_false_iff]
    intro occurs
    have among : (61 : UInt8) ∈ v := mem_of_strstr occurs eq_
    rw [keyBytesLimit, if_pos occurs] at unlimited
    split at unlimited
    · next ends =>
      unfold afterChar at ends
      split at ends
      · next dropped =>
        have all := List.dropWhile_eq_nil_iff.mp dropped 61 among
        simp at all
      · cases ends
    · split at unlimited
      · cases unlimited
      · cases unlimited
  intro both
  rw [limitsOf, Prod.mk.injEq] at both
  rw [mentionsLimit, none_ _ (by decide) both.1, none_ _ (by decide) both.2] at mentions
  cases mentions

/-! ## The loop -/

theorem scanKeyBytes_plain {v : CStr} (plain : limitsOf v = (.ok none, .ok none))
    (rest : List (Option CStr)) (min max : ℤ) : scanKeyBytes (some v :: rest) min max =
      (scanKeyBytes rest min max).map fun scan => { scan with stack := some v :: scan.stack } := by
  obtain ⟨noMax, noMin⟩ := Prod.mk.inj plain
  rw [scanKeyBytes]
  simp only [Option.getD_some, noMax, noMin]

/-- A limit is taken off, and the next entry is passed over. -/
theorem scanKeyBytes_limit {v : CStr} {newMax newMin : Option ℤ}
    (limits : limitsOf v = (.ok newMax, .ok newMin)) (some_ : ¬ (newMax = none ∧ newMin = none))
    (u : Option CStr) (rest : List (Option CStr)) (min max : ℤ) :
    scanKeyBytes (some v :: u :: rest) min max =
      (scanKeyBytes rest (newMin.getD min) (newMax.getD max)).map fun scan =>
        { scan with stack := u :: scan.stack } := by
  obtain ⟨isMax, isMin⟩ := Prod.mk.inj limits
  rw [scanKeyBytes]
  simp only [Option.getD_some, isMax, isMin]
  rcases newMax with _ | newMax
  · rcases newMin with _ | newMin
    · exact absurd ⟨rfl, rfl⟩ some_
    · rfl
  · rcases newMin with _ | newMin
    · rfl
    · rfl

/-- The loop takes off what mentions a limit, unless it ends there with an error. -/
theorem limitsOf_success {v : CStr} {rest : List (Option CStr)} {min max : ℤ} {scan : KeyBytesScan}
    (mentions : mentionsLimit v = true) (scanned : scanKeyBytes (some v :: rest) min max = .ok scan)
    (success : scan.rc = 0) :
    ∃ newMax newMin, limitsOf v = (.ok newMax, .ok newMin) ∧ ¬ (newMax = none ∧ newMin = none) := by
  have limited := limitsOf_mentions mentions
  have failing : ∀ kind rc, keyBytesLimit kind v = .error rc → rc ≠ 0 := by
    intro kind rc failed
    unfold keyBytesLimit at failed
    split_ifs at failed
    split at failed
    · cases failed
    · split at failed
      · cases failed
        decide
      · cases failed
  rw [scanKeyBytes] at scanned
  simp only [Option.getD_some] at scanned
  unfold limitsOf at limited ⊢
  rcases isMax : keyBytesLimit "max_key_bytes=" v with rc | newMax
  · rw [isMax] at scanned
    cases scanned
    exact absurd success (failing _ rc isMax)
  · rcases isMin : keyBytesLimit "min_key_bytes=" v with rc | newMin
    · rw [isMax, isMin] at scanned
      cases scanned
      exact absurd success (failing _ rc isMin)
    · refine ⟨newMax, newMin, rfl, ?_⟩
      rintro ⟨rfl, rfl⟩
      rw [isMax, isMin] at limited
      exact limited rfl

theorem scanKeyBytes_sentinel (min max : ℤ) :
    scanKeyBytes [none] min max = .ok ⟨0, [none], min, max⟩ := by
  rfl

theorem map_eq_ok {α : Type*} {x : Except Stop α} {f : α → α} {b : α} (h : x.map f = .ok b) :
    ∃ a, x = .ok a ∧ b = f a := by
  cases x with
  | error why => cases h
  | ok a => exact ⟨a, rfl, (Except.ok.inj h).symm⟩

/-- What the loop leaves on the stack. -/
theorem scanKeyBytes_stack {entries : List CStr} {min max : ℤ} {scan : KeyBytesScan}
    (scanned : scanKeyBytes (entries.map some ++ [none]) min max = .ok scan) (success : scan.rc = 0) :
    scan.stack = (entriesLeft entries).map some ++ [none] := by
  fun_induction entriesLeft entries generalizing min max scan with
  | case1 =>
    rw [List.map_nil, List.nil_append, scanKeyBytes_sentinel] at scanned
    cases scanned
    rfl
  | case2 v mentions =>
    obtain ⟨newMax, newMin, limits, some_⟩ := limitsOf_success mentions scanned success
    rw [List.map_singleton, List.singleton_append, scanKeyBytes_limit limits some_] at scanned
    cases scanned
    rfl
  | case3 v mentions u rest ih =>
    obtain ⟨newMax, newMin, limits, some_⟩ := limitsOf_success mentions scanned success
    rw [List.map_cons, List.map_cons, List.cons_append, List.cons_append,
      scanKeyBytes_limit limits some_] at scanned
    obtain ⟨scan', scanned', rfl⟩ := map_eq_ok scanned
    exact congrArg (some u :: ·) (ih scanned' success)
  | case4 v rest plain ih =>
    rw [List.map_cons, List.cons_append,
      scanKeyBytes_plain (limitsOf_none (Bool.eq_false_iff.mpr plain))] at scanned
    obtain ⟨scan', scanned', rfl⟩ := map_eq_ok scanned
    exact congrArg (some v :: ·) (ih scanned' success)

/-! ## Which entries are taken off -/

/-- The entries that are no limits. -/
def withoutLimits (entries : List CStr) : List CStr := entries.filter fun v => isLimit v = false

theorem isChain_plain {u : CStr} (plain : isLimit u = false) (l : List CStr) :
    (u :: l).IsChain NextRead ↔ ([] :: l).IsChain NextRead := by
  cases l with
  | nil => simp
  | cons v l =>
    have start : isLimit [] = false := by decide
    rw [List.isChain_cons_cons, List.isChain_cons_cons, NextRead, NextRead, plain, start]

theorem entriesLeft_sublist (entries : List CStr) : (entriesLeft entries).Sublist entries := by
  fun_induction entriesLeft entries with
  | case1 => exact List.Sublist.refl []
  | case2 v mentions => exact List.nil_sublist [v]
  | case3 v mentions u rest ih => exact (ih.cons_cons u).cons v
  | case4 v rest plain ih => exact ih.cons_cons v

/-- An entry that is no limit is lost if it is taken off. -/
theorem entriesLeft_ne {v : CStr} (mentions : mentionsLimit v = true) (plain : isLimit v = false)
    (rest : List CStr) : entriesLeft (v :: rest) ≠ withoutLimits (v :: rest) := by
  intro same
  have without : withoutLimits (v :: rest) = v :: withoutLimits rest := by
    rw [withoutLimits, List.filter_cons_of_pos (by simpa using plain), withoutLimits]
  have left_ : (entriesLeft (v :: rest)).Sublist rest := by
    unfold entriesLeft
    rw [if_pos mentions]
    cases rest with
    | nil => exact List.Sublist.refl []
    | cons u rest => exact (entriesLeft_sublist rest).cons_cons u
  have fewer := (left_.filter fun v => isLimit v = false).length_le
  rw [same, withoutLimits, List.filter_filter] at fewer
  simp only [Bool.and_self] at fewer
  rw [← withoutLimits, without, List.length_cons, ← withoutLimits] at fewer
  omega

/-- The loop takes exactly the limits off if it passes over no limit and takes nothing else. -/
theorem entriesLeft_eq_iff (entries : List CStr) :
    entriesLeft entries = withoutLimits entries ↔ ([] :: entries).IsChain NextRead := by
  have start : isLimit [] = false := by decide
  fun_induction entriesLeft entries with
  | case1 => simp [withoutLimits]
  | case2 v mentions =>
    rw [List.isChain_cons_cons, NextRead, start]
    by_cases limit : isLimit v = true
    · simp [withoutLimits, limit]
    · simp [withoutLimits, limit, mentions]
  | case3 v mentions u rest ih =>
    have ih : entriesLeft rest = withoutLimits rest ↔ ([] :: rest).IsChain NextRead := ih
    rw [List.isChain_cons_cons]
    by_cases limit : isLimit v = true
    · have without : withoutLimits (v :: u :: rest) = withoutLimits (u :: rest) := by
        rw [withoutLimits, List.filter_cons_of_neg (by simp [limit]), withoutLimits]
      have first : NextRead [] v := by simp [NextRead, start, limit]
      rw [without, List.isChain_cons_cons, and_iff_right first]
      by_cases limit' : isLimit u = true
      · -- the second limit stays
        refine iff_of_false (fun same => ?_) fun chain => ?_
        · have among : u ∈ withoutLimits (u :: rest) := same ▸ List.mem_cons_self
          have plain := of_decide_eq_true (List.mem_filter.mp among).2
          rw [limit'] at plain
          cases plain
        · have next := chain.1
          rw [NextRead, if_pos limit, limit'] at next
          cases next
      · have plain := Bool.eq_false_iff.mpr limit'
        have next : NextRead v u := by simp [NextRead, limit, plain]
        rw [and_iff_right next, isChain_plain plain, ← ih, withoutLimits,
          List.filter_cons_of_pos (by simpa using plain), List.cons.injEq, and_iff_right rfl,
          withoutLimits]
    · have plain := Bool.eq_false_iff.mpr limit
      have lost := entriesLeft_ne mentions plain (u :: rest)
      rw [entriesLeft, if_pos mentions] at lost
      refine iff_of_false lost fun chain => ?_
      have first := chain.1
      rw [NextRead, start, if_neg Bool.false_ne_true] at first
      exact limit (first mentions)
  | case4 v rest plain ih =>
    have ih : entriesLeft rest = withoutLimits rest ↔ ([] :: rest).IsChain NextRead := ih
    have unlimited : isLimit v = false := by
      rw [Bool.eq_false_iff]
      exact fun limit => plain (mentionsLimit_of_isLimit limit)
    have first : NextRead [] v := by simp [NextRead, start, plain]
    rw [List.isChain_cons_cons, and_iff_right first, isChain_plain unlimited, ← ih, withoutLimits,
      List.filter_cons_of_pos (by simpa using unlimited), List.cons.injEq, and_iff_right rfl,
      withoutLimits]

theorem lastLimit_cons (kind : CStr → Bool) (limit : ℤ) (v : CStr) (rest : List CStr) :
    lastLimit kind limit (v :: rest) = lastLimit kind (lastLimit kind limit [v]) rest := rfl

theorem lastLimit_plain {v : CStr} (plain : isLimit v = false) (limit : ℤ) :
    lastLimit isMin limit [v] = limit ∧ lastLimit isMax limit [v] = limit := by
  rw [isLimit, Bool.or_eq_false_iff] at plain
  simp [lastLimit, plain.1, plain.2]

/-- What is read of a limit. -/
theorem lastLimit_single {v : CStr} {newMax newMin : Option ℤ} (limit : isLimit v = true)
    (some_ : limitText v ≠ []) (digits : ∀ c ∈ limitText v, isDigit c = true)
    (limits : limitsOf v = (.ok newMax, .ok newMin)) (min max : ℤ) :
    newMin.getD min = lastLimit isMin min [v] ∧ newMax.getD max = lastLimit isMax max [v] := by
  rw [isLimit, Bool.or_eq_true] at limit
  rcases limit with isMax | isMin
  · obtain ⟨read, noMin⟩ := limitsOf_isMax isMax some_ digits
    rw [read, Prod.mk.injEq, Except.ok.injEq, Except.ok.injEq] at limits
    obtain ⟨rfl, rfl⟩ := limits
    simp [lastLimit, isMax, noMin]
  · obtain ⟨read, noMax⟩ := limitsOf_isMin isMin some_ digits
    rw [read, Prod.mk.injEq, Except.ok.injEq, Except.ok.injEq] at limits
    obtain ⟨rfl, rfl⟩ := limits
    simp [lastLimit, isMin, noMax]

/-- The limits that the loop comes to are all limits of the stack, if it takes exactly these off. -/
theorem scanKeyBytes_limits {entries : List CStr} {min max : ℤ} {scan : KeyBytesScan}
    (scanned : scanKeyBytes (entries.map some ++ [none]) min max = .ok scan) (success : scan.rc = 0)
    (decimals : DecimalLimits entries) (chain : ([] :: entries).IsChain NextRead) :
    scan.min = lastLimit isMin min entries ∧ scan.max = lastLimit isMax max entries := by
  have start : isLimit [] = false := by decide
  fun_induction entriesLeft entries generalizing min max scan with
  | case1 =>
    rw [List.map_nil, List.nil_append, scanKeyBytes_sentinel] at scanned
    cases scanned
    exact ⟨rfl, rfl⟩
  | case2 v mentions =>
    obtain ⟨newMax, newMin, limits, some_⟩ := limitsOf_success mentions scanned success
    have limit := (List.isChain_cons_cons.mp chain).1
    rw [NextRead, start, if_neg Bool.false_ne_true] at limit
    obtain ⟨digit, digits⟩ := decimals v List.mem_cons_self (limit mentions)
    rw [List.map_singleton, List.singleton_append, scanKeyBytes_limit limits some_] at scanned
    cases scanned
    exact lastLimit_single (limit mentions) digit digits limits min max
  | case3 v mentions u rest ih =>
    obtain ⟨newMax, newMin, limits, some_⟩ := limitsOf_success mentions scanned success
    obtain ⟨first, chain⟩ := List.isChain_cons_cons.mp chain
    obtain ⟨second, chain⟩ := List.isChain_cons_cons.mp chain
    rw [NextRead, start, if_neg Bool.false_ne_true] at first
    have limit := first mentions
    rw [NextRead, if_pos limit] at second
    obtain ⟨digit, digits⟩ := decimals v List.mem_cons_self limit
    rw [List.map_cons, List.map_cons, List.cons_append, List.cons_append,
      scanKeyBytes_limit limits some_] at scanned
    obtain ⟨scan', scanned', rfl⟩ := map_eq_ok scanned
    obtain ⟨isMin_, isMax_⟩ := ih scanned' success
      (fun x among => decimals x (List.mem_cons_of_mem v (List.mem_cons_of_mem u among)))
      ((isChain_plain second rest).mp chain)
    obtain ⟨readMin, readMax⟩ := lastLimit_single limit digit digits limits min max
    refine ⟨?_, ?_⟩
    · rw [lastLimit_cons, lastLimit_cons, (lastLimit_plain second _).1, ← readMin]
      exact isMin_
    · rw [lastLimit_cons, lastLimit_cons, (lastLimit_plain second _).2, ← readMax]
      exact isMax_
  | case4 v rest plain ih =>
    have unlimited : isLimit v = false := by
      rw [Bool.eq_false_iff]
      exact fun limit => plain (mentionsLimit_of_isLimit limit)
    rw [List.map_cons, List.cons_append,
      scanKeyBytes_plain (limitsOf_none (Bool.eq_false_iff.mpr plain))] at scanned
    obtain ⟨scan', scanned', rfl⟩ := map_eq_ok scanned
    rw [lastLimit_cons isMin, lastLimit_cons isMax, (lastLimit_plain unlimited _).1,
      (lastLimit_plain unlimited _).2]
    have read := ih scanned' success (fun x among => decimals x (List.mem_cons_of_mem v among))
      ((isChain_plain unlimited rest).mp (List.isChain_cons_cons.mp chain).2)
    exact read

/-! ## The sizes on offer -/

/-- What `tf_ecryptfs_cipher` leaves behind for the cipher `C`: the cipher on the stack in place of the
limits, and sizes of the cipher that respect all limits. -/
structure LimitsApplied (C : CStr) (entries : List CStr) (w : MountWorld) : Prop where
  stack : w.stack = param "ecryptfs_cipher=" C :: ((withoutLimits entries).map some ++ [none])
  sizes : ∀ tn ∈ (w.nodes .keyBytes).tl, ∃ e ∈ supportedKeyBytes, lit e.1 = C ∧
    tn.val = some (decimalText e.2) ∧
      ∀ v ∈ entries, (isMax v = true → e.2 ≤ limitValue v) ∧ (isMin v = true → limitValue v ≤ e.2)

/-- What is left behind when the function succeeds. -/
theorem tfCipher_success {C : CStr} {w w' : MountWorld} (cipher : (w.nodes .cipher).val = some C)
    (empty : (w.nodes .keyBytes).tl = []) (success : tfCipher .cipher w = .ok (0, w')) :
    ∃ scan, scanKeyBytes w.stack 0 999999 = .ok scan ∧ scan.rc = 0 ∧
      w'.stack = param "ecryptfs_cipher=" C :: scan.stack ∧
        (w'.nodes .keyBytes).tl =
          ((keyBytesBetween scan.min scan.max).filter fun e => lit e.1 = C).map fun e =>
            ⟨some (decimalText e.2), some .versionSupport, some .keyBytes⟩ := by
  unfold tfCipher at success
  rcases scanned : scanKeyBytes w.stack 0 999999 with why | scan
  · rw [scanned] at success
    cases success
  · rw [scanned] at success
    dsimp only at success
    by_cases failed : scan.rc ≠ 0
    · rw [if_pos failed] at success
      exact absurd (Prod.mk.inj (Except.ok.inj success)).1 failed
    · rw [if_neg failed, cipher, initKeyBytesNode] at success
      dsimp only at success
      refine ⟨scan, rfl, not_not.mp failed, ?_⟩
      split at success
      · cases success
      · next rc filled =>
        split_ifs at filled
        · cases filled
          cases success
        · cases filled
      · next node filled =>
        split_ifs at filled
        · cases filled
        · cases filled
          cases success
          refine ⟨rfl, ?_⟩
          rw [empty, List.nil_append, List.map_map]
          rfl

/-- **When the limits are applied.**  Whenever the function succeeds, for all stacks of texts with
decimal limits: if no limit is directly behind another one (and nothing but a limit, or an entry
directly behind one, contains the text of a limit), and each size of the cipher between the last limits
of the two kinds respects all limits. -/
theorem limitsApplied_iff (C : CStr) (entries : List CStr) (w w' : MountWorld)
    (stack : w.stack = entries.map some ++ [none]) (decimals : DecimalLimits entries)
    (cipher : (w.nodes .cipher).val = some C) (empty : (w.nodes .keyBytes).tl = [])
    (success : tfCipher .cipher w = .ok (0, w')) :
    LimitsApplied C entries w' ↔ ([] :: entries).IsChain NextRead ∧
      ∀ e ∈ supportedKeyBytes, lit e.1 = C → toUnsigned (lastLimit isMin 0 entries) ≤ e.2 →
        e.2 ≤ toUnsigned (lastLimit isMax 999999 entries) →
          ∀ v ∈ entries, (isMax v = true → e.2 ≤ limitValue v) ∧
            (isMin v = true → limitValue v ≤ e.2) := by
  obtain ⟨scan, scanned, rc, stack', sizes⟩ := tfCipher_success cipher empty success
  rw [stack] at scanned
  have left_ := scanKeyBytes_stack scanned rc
  have whole : w'.stack = param "ecryptfs_cipher=" C :: ((withoutLimits entries).map some ++ [none]) ↔
      ([] :: entries).IsChain NextRead := by
    rw [← entriesLeft_eq_iff, stack', left_, List.cons.injEq, and_iff_right rfl,
      List.append_left_inj]
    exact (List.map_injective_iff.mpr (Option.some_injective CStr)).eq_iff
  have injective : ∀ e ∈ supportedKeyBytes, ∀ e' ∈ supportedKeyBytes,
      decimalText e.2 = decimalText e'.2 → e.2 = e'.2 := by decide
  constructor
  · rintro ⟨applied, respected⟩
    have chain := whole.mp applied
    obtain ⟨isMin_, isMax_⟩ := scanKeyBytes_limits scanned rc decimals chain
    refine ⟨chain, fun e among named low high => ?_⟩
    have offered : (⟨some (decimalText e.2), some .versionSupport, some .keyBytes⟩ :
        TransitionNode NodeId Callback) ∈ (w'.nodes .keyBytes).tl := by
      rw [sizes, isMin_, isMax_]
      refine List.mem_map.mpr ⟨e, List.mem_filter.mpr ⟨List.mem_filter.mpr ⟨among, ?_⟩, ?_⟩, rfl⟩
      · exact decide_eq_true ⟨low, high⟩
      · exact decide_eq_true named
    obtain ⟨e', among', -, same, within⟩ := respected _ offered
    rw [injective e among e' among' (Option.some.inj same)]
    exact within
  · rintro ⟨chain, respected⟩
    obtain ⟨isMin_, isMax_⟩ := scanKeyBytes_limits scanned rc decimals chain
    refine ⟨whole.mpr chain, fun tn among => ?_⟩
    rw [sizes, isMin_, isMax_] at among
    obtain ⟨e, inTable, rfl⟩ := List.mem_map.mp among
    obtain ⟨between, named⟩ := List.mem_filter.mp inTable
    obtain ⟨supported, limits⟩ := List.mem_filter.mp between
    obtain ⟨low, high⟩ := of_decide_eq_true limits
    have named := of_decide_eq_true named
    exact ⟨e, supported, named, rfl, respected e supported named low high⟩

/-- The cipher `aes` chosen, with some limits on the stack. -/
def limitedWorld (entries : List CStr) : MountWorld where
  nodes n := if n = .cipher then { staticNode .cipher with val := some (lit "aes") } else staticNode n
  stack := entries.map some ++ [none]
  ext := {}

theorem limitsApplied_single :
    ∃ w', tfCipher .cipher (limitedWorld [lit "max_key_bytes=24", lit "ecryptfs_sig=x"]) = .ok (0, w') ∧
      LimitsApplied (lit "aes") [lit "max_key_bytes=24", lit "ecryptfs_sig=x"] w' := by
  refine ⟨_, rfl, ?_⟩
  refine (limitsApplied_iff (lit "aes") _ (limitedWorld _) _ rfl ?_ rfl rfl rfl).mpr ⟨?_, ?_⟩
  · intro v among limit
    simp only [List.mem_cons, List.not_mem_nil, or_false] at among
    rcases among with rfl | rfl
    · exact ⟨by decide, List.all_eq_true.mp (by decide)⟩
    · exact absurd limit (by decide)
  · simp only [List.isChain_cons_cons, List.isChain_singleton, and_true]
    unfold NextRead
    decide
  · decide

/-- A smallest size directly behind a largest one stays on the stack. -/
theorem limitsApplied_fails :
    ∃ w', tfCipher .cipher (limitedWorld [lit "max_key_bytes=16", lit "min_key_bytes=16"]) = .ok (0, w') ∧
      ¬ LimitsApplied (lit "aes") [lit "max_key_bytes=16", lit "min_key_bytes=16"] w' := by
  refine ⟨_, rfl, fun applied => ?_⟩
  have stack := applied.stack
  revert stack
  change _ ≠ _
  decide

end Ecryptfs
