import Ecryptfs.Graph.Transitions

/-!
# Which transition is followed

A transition is selected by the value of the node, by an option in the list or as the default (`pick`).
The three ways read the codes of the transition functions differently: `followsOnce_iff` says when only
one function is called and its success is also that of the call, and `followsOnly_iff` when the value of
the node decides.
-/

namespace Ecryptfs

variable {ν κ ω : Type}

/-! ## The next transition -/

/-- How a transition is selected: by the value of the node, by an option in the list, or as the default. -/
inductive Pick where
  | value (i : ℕ)
  | name (i : ℕ)
  | byDefault (i : ℕ)
  deriving DecidableEq

/-- The number of the transition. -/
def Pick.index : Pick → ℕ
  | .value i | .name i | .byDefault i => i

/-- An entry of the list selects a transition with its name, or without a value. -/
def Names (e : NameValPair) (tn : TransitionNode ν κ) : Prop := ¬ (tn.val.isSome ∧ tn.val ≠ some e.name)

instance (e : NameValPair) (tn : TransitionNode ν κ) : Decidable (Names e tn) :=
  inferInstanceAs (Decidable (¬ (tn.val.isSome ∧ tn.val ≠ some e.name)))

/-- The transition that the first loop selects from number `i` on. -/
def pickFrom (nvps : List NameValPair) (node : ParamNode ν κ) : ℕ → ℕ → Option Pick
  | 0, _ => none
  | slots + 1, i =>
    match node.tl[i]? with
    | none => none
    | some tn =>
      if tn.val.isSome ∧ tn.val = node.val then some (.value i)
      else if ∃ e ∈ nvps, Names e tn then some (.name i)
      else pickFrom nvps node slots (i + 1)

/-- The transition that the second loop selects from number `i` on. -/
def pickDefault (node : ParamNode ν κ) : ℕ → ℕ → Option Pick
  | 0, _ => none
  | slots + 1, i =>
    match node.tl[i]? with
    | none => none
    | some tn => if tn.val ≠ some (lit "default") then pickDefault node slots (i + 1) else some (.byDefault i)

/-- The transition that is selected from number `i` on. -/
def pick (nvps : List NameValPair) (node : ParamNode ν κ) (i : ℕ) : Option Pick :=
  (pickFrom nvps node (maxNumTransitions - i) i).or (pickDefault node maxNumTransitions 0)

/-- The transition that is selected next within transition number `i`, when the entries `es` of the
list are left. -/
def pickWithin (nvps es : List NameValPair) (node : ParamNode ν κ) (i : ℕ) : Option Pick :=
  if ∃ tn ∈ node.tl[i]?, ∃ e ∈ es, Names e tn then some (.name i) else pick nvps node (i + 1)

/-- The entries behind the first one that selects a transition. -/
def entriesBehind (tn : TransitionNode ν κ) (nvps : List NameValPair) : List NameValPair :=
  (nvps.dropWhile fun e => ¬ Names e tn).tail

section

variable (results : Returning ν κ ω) (nvps : List NameValPair) (current : ν)

/-- The first loop from transition number `i` on, when the entries `es` of the list are left for it. -/
def withinTrace (i : ℕ) (es : List NameValPair) (w : World ν κ ω) : List Taken × Selected ν κ ω :=
  match nvpTrace results nvps current i es w with
  | (ts, .ret rc next w) => (ts, .ret rc next w)
  | (ts, .go w) =>
    match selectTrace results nvps current (maxNumTransitions - (i + 1)) (i + 1) w with
    | (ts', selected) => (ts ++ ts', selected)

/-- The first loop comes to the transition that is picked; `whole` tells that all entries of the list
are left when that is selected by its name. -/
inductive Picks (whole : Prop) (w : World ν κ ω) : Option Pick → List Taken × Selected ν κ ω → Prop
  | nothing (none_ : pickDefault (w.nodes current) maxNumTransitions 0 = none) :
      Picks whole w none ([], .passed w)
  | value {i : ℕ} {tn : TransitionNode ν κ} (here : transition w current i = some tn) :
      Picks whole w (some (.value i)) ([], .matched i w)
  | name {i : ℕ} {tn : TransitionNode ν κ} (bound : i < maxNumTransitions)
      (here : transition w current i = some tn) (es : List NameValPair)
      (named : ∃ e ∈ es, Names e tn) (all : whole → es = nvps) :
      Picks whole w (some (.name i)) (withinTrace results nvps current i es w)
  | byDefault {i : ℕ}
      (default_ : pickDefault (w.nodes current) maxNumTransitions 0 = some (.byDefault i)) :
      Picks whole w (some (.byDefault i)) ([], .passed w)

variable {results nvps current} {whole : Prop}

theorem nvpTrace_of_none {i : ℕ} {es : List NameValPair} {w : World ν κ ω}
    (none_ : ¬ ∃ tn ∈ transition w current i, ∃ e ∈ es, Names e tn) :
    nvpTrace results nvps current i es w = ([], .go w) := by
  induction es with
  | nil => rfl
  | cons e es ih =>
    unfold nvpTrace
    rcases here : transition w current i with _ | tn
    · rfl
    · rw [here] at none_ ih
      have other : tn.val.isSome ∧ tn.val ≠ some e.name := by
        by_contra named
        exact none_ ⟨tn, rfl, e, List.mem_cons_self, named⟩
      dsimp only
      rw [if_pos other]
      refine ih ?_
      rintro ⟨tn', same, e', among, named⟩
      exact none_ ⟨tn', same, e', List.mem_cons_of_mem e among, named⟩

/-- The entry that selects the transition. -/
theorem nvpTrace_of_some {i : ℕ} {es : List NameValPair} {w : World ν κ ω} {tn : TransitionNode ν κ}
    (here : transition w current i = some tn) (named : ∃ e ∈ es, Names e tn) :
    nvpTrace results nvps current i es w =
      match take results i nullTok tn.transFunc current nvps w with
      | (t, code, w) =>
        if code = mountError then ([t], .ret code none w)
        else if code = defaultTok ∨ code = nullTok then
          match nextToken w current i with
          | some next => ([t], .ret 0 (some next) w)
          | none => ([t], .ret (-einval) none w)
        else
          match nvpTrace results nvps current i (entriesBehind tn es) w with
          | (ts, flow) => (t :: ts, flow) := by
  induction es with
  | nil =>
    obtain ⟨e, among, -⟩ := named
    cases among
  | cons e es ih =>
    conv_lhs => unfold nvpTrace
    rw [here]
    dsimp only
    by_cases first : Names e tn
    · have behind : entriesBehind tn (e :: es) = es := by
        rw [entriesBehind, List.dropWhile_cons_of_neg (by simpa using first), List.tail_cons]
      rw [behind]
      exact if_neg first
    · have later : ∃ e ∈ es, Names e tn := by
        obtain ⟨e', among, named⟩ := named
        rcases List.mem_cons.mp among with rfl | among
        · exact absurd named first
        · exact ⟨e', among, named⟩
      have behind : entriesBehind tn (e :: es) = entriesBehind tn es := by
        rw [entriesBehind, List.dropWhile_cons_of_pos (by simpa using first), entriesBehind]
      rw [if_pos (not_not.mp first), ih later, behind]

theorem pickDefault_eq {node : ParamNode ν κ} {slots i : ℕ} {p : Pick}
    (picked : pickDefault node slots i = some p) : ∃ j, p = .byDefault j := by
  induction slots generalizing i with
  | zero => cases picked
  | succ slots ih =>
    unfold pickDefault at picked
    split at picked
    · cases picked
    · split_ifs at picked
      · exact ih picked
      · exact ⟨i, (Option.some.inj picked).symm⟩

theorem picks_passed (w : World ν κ ω) :
    Picks results nvps current whole w (pickDefault (w.nodes current) maxNumTransitions 0)
      ([], .passed w) := by
  rcases picked : pickDefault (w.nodes current) maxNumTransitions 0 with _ | p
  · exact .nothing picked
  · obtain ⟨j, rfl⟩ := pickDefault_eq picked
    exact .byDefault picked

/-- The first loop from a transition on. -/
theorem picks_pick {slots i : ℕ} (total : slots + i = maxNumTransitions) (w : World ν κ ω) :
    Picks results nvps current whole w (pick nvps (w.nodes current) i)
      (selectTrace results nvps current slots i w) := by
  have rest : maxNumTransitions - i = slots := by omega
  rw [pick, rest]
  clear rest
  induction slots generalizing i with
  | zero => exact picks_passed w
  | succ slots ih =>
    unfold selectTrace pickFrom
    rw [show (w.nodes current).tl[i]? = transition w current i from rfl]
    rcases here : transition w current i with _ | tn
    · exact picks_passed w
    · dsimp only
      split_ifs with same named
      · exact .value here
      · have left_ : slots = maxNumTransitions - (i + 1) := by omega
        subst left_
        exact .name (by omega) here nvps named fun _ => rfl
      · have none_ : ¬ ∃ tn ∈ transition w current i, ∃ e ∈ nvps, Names e tn := by
          rintro ⟨tn', same', among⟩
          rw [here] at same'
          cases same'
          exact named among
        rw [nvpTrace_of_none none_]
        exact ih (by omega)

/-- The first loop from within a transition on. -/
theorem picks_within {i : ℕ} (bound : i < maxNumTransitions) (es : List NameValPair)
    (w : World ν κ ω) : Picks results nvps current False w (pickWithin nvps es (w.nodes current) i)
      (withinTrace results nvps current i es w) := by
  unfold pickWithin
  rw [show (w.nodes current).tl[i]? = transition w current i from rfl]
  split_ifs with named
  · obtain ⟨tn, here, among⟩ := named
    exact .name bound here es among False.elim
  · unfold withinTrace
    rw [nvpTrace_of_none named]
    exact picks_pick (by omega) w

end

/-! ## What a selection comes to -/

/-- The codes with which a transition function reports success. -/
def Success (code : ℤ) : Prop := code = 0 ∨ code = nullTok ∨ code = defaultTok

instance : DecidablePred Success :=
  fun code => inferInstanceAs (Decidable (code = 0 ∨ code = nullTok ∨ code = defaultTok))

theorem Success.not_failing {code : ℤ} (good : Success code) :
    ¬ (code = wrongValue ∨ code = mountError ∨ code < 0) := by
  unfold Success nullTok defaultTok at good
  unfold wrongValue mountError
  omega

section

variable {results : Returning ν κ ω} {current : ν} {s : EvalState ν κ ω} {w : World ν κ ω}
  {tn : TransitionNode ν κ}

theorem defaultTrace_none {slots i : ℕ} (none_ : pickDefault (s.node current) slots i = none) :
    defaultTrace results s current slots i = ([], none) := by
  induction slots generalizing i with
  | zero => rfl
  | succ slots ih =>
    unfold pickDefault at none_
    unfold defaultTrace
    rw [show (s.node current).tl[i]? = transition s.world current i from rfl] at none_
    rcases here : transition s.world current i with _ | tn
    · rfl
    · rw [here] at none_
      dsimp only at none_ ⊢
      split_ifs at none_ with other
      rw [if_pos other]
      exact ih none_

theorem defaultTrace_some (results : Returning ν κ ω) {slots i j : ℕ}
    (picked : pickDefault (s.node current) slots i = some (.byDefault j)) :
    ∃ tn, transition s.world current j = some tn ∧
      ∃ rest, defaultTrace results s current slots i = defaultTrace results s current (rest + 1) j ∧
        tn.val = some (lit "default") := by
  induction slots generalizing i with
  | zero => cases picked
  | succ slots ih =>
    unfold pickDefault at picked
    rw [show (s.node current).tl[i]? = transition s.world current i from rfl] at picked
    rcases here : transition s.world current i with _ | tn
    · rw [here] at picked
      cases picked
    · rw [here] at picked
      dsimp only at picked
      split_ifs at picked with other
      · obtain ⟨tn', here', rest, same, isDefault⟩ := ih picked
        refine ⟨tn', here', rest, ?_, isDefault⟩
        rw [← same]
        conv_lhs => unfold defaultTrace
        rw [here]
        exact if_pos other
      · cases picked
        exact ⟨tn, here, slots, rfl, not_not.mp other⟩

theorem finishTrace_cons (t : Taken) (r : List Taken × Selected ν κ ω) :
    finishTrace results current s (t :: r.1, r.2) =
      (t :: (finishTrace results current s r).1, (finishTrace results current s r).2) := by
  obtain ⟨ts, selected⟩ := r
  cases selected with
  | matched i w => rfl
  | ret rc next w => rfl
  | passed w =>
    dsimp only [finishTrace]
    rcases defaultTrace results _ current maxNumTransitions 0 with ⟨ts', _ | result⟩
    · rfl
    · rfl

/-- A transition is selected by its name. -/
theorem withinTrace_of_some {nvps : List NameValPair} {i : ℕ} {es : List NameValPair}
    (here : transition w current i = some tn) (named : ∃ e ∈ es, Names e tn) :
    withinTrace results nvps current i es w =
      match take results i nullTok tn.transFunc current nvps w with
      | (t, code, w) =>
        if code = mountError then ([t], .ret code none w)
        else if code = defaultTok ∨ code = nullTok then
          match nextToken w current i with
          | some next => ([t], .ret 0 (some next) w)
          | none => ([t], .ret (-einval) none w)
        else
          (t :: (withinTrace results nvps current i (entriesBehind tn es) w).1,
            (withinTrace results nvps current i (entriesBehind tn es) w).2) := by
  unfold withinTrace
  rw [nvpTrace_of_some here named]
  rcases take results i nullTok tn.transFunc current nvps w with ⟨t, code, w⟩
  dsimp only
  split_ifs
  · rfl
  · rcases nextToken w current i with _ | next
    · rfl
    · rfl
  · rcases nvpTrace results nvps current i (entriesBehind tn es) w with ⟨ts, flow⟩
    cases flow with
    | ret rc next w => rfl
    | go w => rfl

/-- Nothing is selected: the call fails. -/
theorem finishTrace_nothing {whole : Prop} {r : List Taken × Selected ν κ ω}
    (picks : Picks results s.nvps current whole w none r) :
    ∃ rc, rc ≠ 0 ∧ finishTrace results current s r = ([], rc, none, { s with world := w }) := by
  cases picks with
  | nothing none_ =>
    refine ⟨if (w.nodes current).tl ≠ [] then mountError else nullTok, ?_, ?_⟩
    · split_ifs
      · decide
      · decide
    · dsimp only [finishTrace]
      rw [defaultTrace_none (s := { s with world := w }) none_]
      rfl

/-- A default transition is followed if its function succeeds. -/
theorem defaultTrace_here (rest : ℕ) {i : ℕ} (here : transition s.world current i = some tn)
    (isDefault : tn.val = some (lit "default")) {t : Taken} {code : ℤ} {w' : World ν κ ω}
    (took : take results i nullTok tn.transFunc current s.nvps s.world = (t, code, w')) :
    ∃ rc next s', defaultTrace results s current (rest + 1) i = ([t], some (rc, next, s')) ∧
      s'.world = w' ∧ (Success code → next = nextToken w' current i ∧ s' = { s with world := w' } ∧
        (rc = 0 ↔ next.isSome)) := by
  unfold defaultTrace
  rw [here]
  dsimp only
  rw [if_neg (not_not.mpr isDefault), took]
  dsimp only
  split_ifs with wrong asks often failed
  · exact ⟨_, _, _, rfl, rfl, fun good => absurd (.inl wrong) good.not_failing⟩
  · exact ⟨_, _, _, rfl, rfl, fun good => absurd (.inl wrong) good.not_failing⟩
  · exact ⟨_, _, _, rfl, rfl, fun good => absurd (.inl wrong) good.not_failing⟩
  · exact ⟨_, _, _, rfl, rfl, fun good => absurd (.inr failed) good.not_failing⟩
  · rcases nextToken w' current i with _ | next
    · exact ⟨_, _, _, rfl, rfl, fun _ => ⟨rfl, rfl, by simp [einval]⟩⟩
    · exact ⟨_, _, _, rfl, rfl, fun _ => ⟨rfl, rfl, by simp⟩⟩

/-- What is picked is one of the transitions. -/
theorem Picks.transition {nvps : List NameValPair} {whole : Prop} {p : Pick}
    {r : List Taken × Selected ν κ ω} (picks : Picks results nvps current whole w (some p) r) :
    ∃ tn, Ecryptfs.transition w current p.index = some tn := by
  cases picks with
  | value here => exact ⟨_, here⟩
  | name bound here es named all => exact ⟨_, here⟩
  | byDefault default_ =>
    obtain ⟨tn, here, -⟩ := defaultTrace_some (fun _ _ _ w => (0, w))
      (s := ⟨w, [], 0, false, [], 0, none⟩) default_
    exact ⟨tn, here⟩

theorem finishTrace_value (i : ℕ) (here : transition w current i = some tn) {t : Taken} {code : ℤ}
    {w' : World ν κ ω} (took : take results i 0 tn.transFunc current s.nvps w = (t, code, w')) :
    finishTrace results current s ([], .matched i w) =
      ([t], if nextToken w' current i = none then einval else code, nextToken w' current i,
        { s with world := w' }) := by
  dsimp only [finishTrace, followTrace]
  rw [here, Option.bind_some, took]
  dsimp only
  rcases nextToken w' current i with _ | next
  · rfl
  · rfl

theorem finishTrace_byDefault (results : Returning ν κ ω) {i : ℕ}
    (picked : pickDefault (w.nodes current) maxNumTransitions 0 = some (.byDefault i))
    (here : transition w current i = some tn) {t : Taken} {code : ℤ} {w' : World ν κ ω}
    (took : take results i nullTok tn.transFunc current s.nvps w = (t, code, w')) :
    ∃ rc next s', finishTrace results current s ([], .passed w) = ([t], rc, next, s') ∧
      s'.world = w' ∧ (Success code → next = nextToken w' current i ∧ s' = { s with world := w' } ∧
        (rc = 0 ↔ next.isSome)) := by
  obtain ⟨tn', here', rest, same, isDefault⟩ :=
    defaultTrace_some results (s := { s with world := w }) picked
  cases here.symm.trans here'
  obtain ⟨rc, next, s', reached, world, good⟩ :=
    defaultTrace_here rest (s := { s with world := w }) here isDefault took
  refine ⟨rc, next, s', ?_, world, good⟩
  dsimp only [finishTrace]
  rw [same, reached]
  rfl

/-- A transition without a function is the only one, and is followed. -/
theorem finishTrace_quiet {whole : Prop} {p : Pick} {r : List Taken × Selected ν κ ω}
    (picks : Picks results s.nvps current whole w (some p) r)
    (here : transition w current p.index = some tn) (quiet : tn.transFunc = none) :
    ∃ rc, finishTrace results current s r =
        ([⟨p.index, none⟩], rc, nextToken w current p.index, { s with world := w }) ∧
      (rc = 0 ↔ (nextToken w current p.index).isSome) := by
  cases picks with
  | @value i tn' here' =>
    refine ⟨_, finishTrace_value i here (by rw [quiet]; rfl), ?_⟩
    rw [Pick.index]
    rcases nextToken w current i with _ | next
    · simp [einval]
    · simp
  | @name i tn' bound here' es named all =>
    cases here.symm.trans here'
    rw [withinTrace_of_some here' named, quiet, take]
    dsimp only
    rw [if_neg (by decide), if_pos (.inr rfl), Pick.index]
    rcases nextToken w current i with _ | next
    · exact ⟨-einval, rfl, by simp [einval]⟩
    · exact ⟨0, rfl, by simp⟩
  | @byDefault i default_ =>
    obtain ⟨rc, next, s', reached, world, good⟩ :=
      finishTrace_byDefault results (s := s) default_ here (by rw [quiet, take])
    obtain ⟨rfl, rfl, zero⟩ := good (.inr (.inl rfl))
    exact ⟨rc, reached, zero⟩

/-- The function of the first transition is called. -/
theorem finishTrace_calls {whole : Prop} {p : Pick} {r : List Taken × Selected ν κ ω}
    (picks : Picks results s.nvps current whole w (some p) r)
    (here : transition w current p.index = some tn) {f : κ} (calls : tn.transFunc = some f) :
    ∃ ts, (finishTrace results current s r).1 =
      ⟨p.index, some (results f current s.nvps w).1⟩ :: ts := by
  cases picks with
  | @value i tn' here' =>
    exact ⟨[], congrArg Prod.fst (finishTrace_value i here (by rw [calls]; rfl))⟩
  | @name i tn' bound here' es named all =>
    cases here.symm.trans here'
    rw [withinTrace_of_some here' named, calls, take]
    dsimp only
    split_ifs
    · exact ⟨[], rfl⟩
    · rcases nextToken (results f current s.nvps w).2 current i with _ | next
      · exact ⟨[], rfl⟩
      · exact ⟨[], rfl⟩
    · rw [finishTrace_cons]
      exact ⟨_, rfl⟩
  | @byDefault i default_ =>
    obtain ⟨rc, next, s', reached, -⟩ :=
      finishTrace_byDefault results (s := s) default_ here (by rw [calls, take])
    exact ⟨[], congrArg Prod.fst reached⟩

end

/-! ## One function, followed -/

section

variable [DecidableEq ν] (results : Returning ν κ ω) (current : ν) (s : EvalState ν κ ω)

/-- At most one transition function is called, once, and if it succeeds the call comes to the next node
of its transition. -/
structure FollowsOnce : Prop where
  once : ((transitionTrace results current s).1.filterMap Taken.code).length ≤ 1
  followed : ∀ i code, ⟨i, some code⟩ ∈ (transitionTrace results current s).1 → Success code →
    ∀ rc next s', doTransition results.callbacks current s = .ok (rc, next, s') →
      ∀ m, nextToken s'.world current i = some m → rc = 0 ∧ next = some m

/-- A function that an option has selected is the last one, and followed: its code ends the loop over
the list, or what is selected next has no function and, for the code 0, leads to the same node. -/
def LastFollowed (i : ℕ) (tn : TransitionNode ν κ) (result : ℤ × World ν κ ω) : Prop :=
  result.1 = mountError ∨ result.1 = defaultTok ∨ result.1 = nullTok ∨
    match pickWithin s.nvps (entriesBehind tn s.nvps) (result.2.nodes current) i with
    | none => result.1 = 0 → nextToken result.2 current i = none
    | some p => (∀ tn' ∈ transition result.2 current p.index, tn'.transFunc = none) ∧
        (result.1 = 0 → ∀ m ∈ nextToken result.2 current i, nextToken result.2 current p.index = some m)

/-- The transition that is selected first is followed: as the value of the node, its function does not
say `NULL_TOK` or `DEFAULT_TOK`, or it has no next node; by an option, its function is `LastFollowed`. -/
def FirstFollowed : Prop :=
  match pick s.nvps (s.node current) 0 with
  | none => True
  | some (.byDefault _) => True
  | some (.value i) => ∀ tn ∈ transition s.world current i, ∀ f ∈ tn.transFunc,
      (results f current s.nvps s.world).1 = nullTok ∨ (results f current s.nvps s.world).1 = defaultTok →
        nextToken (results f current s.nvps s.world).2 current i = none
  | some (.name i) => ∀ tn ∈ transition s.world current i, ∀ f ∈ tn.transFunc,
      LastFollowed current s i tn (results f current s.nvps s.world)

variable {results current s} {i : ℕ} {code rc : ℤ} {next : Option ν} {s' : EvalState ν κ ω}

theorem followsOnce_of_quiet {ts : List Taken} (quiet : ∀ t ∈ ts, t.code = none)
    (trace : transitionTrace results current s = (ts, rc, next, s')) : FollowsOnce results current s := by
  refine ⟨?_, fun i code among => ?_⟩
  · rw [trace, List.filterMap_eq_nil_iff.mpr quiet]
    exact Nat.zero_le 1
  · rw [trace] at among
    cases quiet _ among

/-- One function is called. -/
theorem followsOnce_single {ts : List Taken} (quiet : ∀ t ∈ ts, t.code = none)
    (trace : transitionTrace results current s = (⟨i, some code⟩ :: ts, rc, next, s')) :
    FollowsOnce results current s ↔
      (Success code → ∀ m, nextToken s'.world current i = some m → rc = 0 ∧ next = some m) := by
  have returns : doTransition results.callbacks current s = .ok (rc, next, s') := by
    rw [doTransition_trace, trace]
  constructor
  · rintro ⟨-, followed⟩ good
    rw [trace] at followed
    exact followed i code List.mem_cons_self good rc next s' returns
  · refine fun followed => ⟨?_, fun i' code' among good rc' next' t returns' => ?_⟩
    · have none_ := List.filterMap_eq_nil_iff.mpr quiet
      simp [trace, none_]
    · rw [returns] at returns'
      cases returns'
      rw [trace] at among
      rcases List.mem_cons.mp among with same | among
      · cases same
        exact followed good
      · cases quiet _ among

/-- Two functions are called. -/
theorem not_followsOnce {i' : ℕ} {code' : ℤ} {ts : List Taken}
    (trace : (transitionTrace results current s).1 = ⟨i, some code⟩ :: ⟨i', some code'⟩ :: ts) :
    ¬ FollowsOnce results current s := by
  rintro ⟨once, -⟩
  simp [trace] at once

theorem followsOnce_value {tn : TransitionNode ν κ} {f : κ} (here : transition s.world current i = some tn)
    (calls : tn.transFunc = some f)
    (trace : transitionTrace results current s =
      finishTrace results current (enterNode current s) ([], .matched i s.world)) :
    FollowsOnce results current s ↔
      ((results f current s.nvps s.world).1 = nullTok ∨ (results f current s.nvps s.world).1 = defaultTok →
        nextToken (results f current s.nvps s.world).2 current i = none) := by
  have took : take results i 0 tn.transFunc current (enterNode current s).nvps s.world =
      (⟨i, some (results f current s.nvps s.world).1⟩, results f current s.nvps s.world) := by
    rw [calls]
    rfl
  rw [finishTrace_value i here took] at trace
  rw [followsOnce_single (by simp) trace]
  generalize results f current s.nvps s.world = result
  rcases nextToken result.2 current i with _ | m
  · simp
  · have codes : ∀ code : ℤ, (Success code → code = 0) ↔ ¬ (code = nullTok ∨ code = defaultTok) := by
      intro code
      unfold Success nullTok defaultTok
      omega
    simpa using codes result.1

/-- What is selected behind the function of transition number `i` calls no function and, when that
returned zero, leads to its next node. -/
def QuietBehind (current : ν) (i : ℕ) (code : ℤ) (w : World ν κ ω) : Option Pick → Prop
  | none => code = 0 → nextToken w current i = none
  | some p => (∀ tn ∈ transition w current p.index, tn.transFunc = none) ∧
      (code = 0 → ∀ m ∈ nextToken w current i, nextToken w current p.index = some m)

/-- A function whose code does not end the loop over the list is followed if nothing else is called
behind it. -/
theorem followsOnce_behind {w : World ν κ ω} {p : Option Pick} {r : List Taken × Selected ν κ ω}
    (picks : Picks results (enterNode current s).nvps current False w p r) (zero : Success code ↔ code = 0)
    (trace : transitionTrace results current s =
      (⟨i, some code⟩ :: (finishTrace results current (enterNode current s) r).1,
        (finishTrace results current (enterNode current s) r).2)) :
    FollowsOnce results current s ↔ QuietBehind current i code w p := by
  rcases p with _ | p
  · obtain ⟨rc, failed, outcome⟩ := finishTrace_nothing (s := enterNode current s) picks
    rw [outcome] at trace
    rw [followsOnce_single (by simp) trace, zero]
    constructor
    · intro followed isZero
      by_contra some_
      obtain ⟨m, follows⟩ := Option.ne_none_iff_exists'.mp some_
      exact failed (followed isZero m follows).1
    · intro none_ isZero m follows
      cases (none_ isZero).symm.trans follows
  · obtain ⟨tn', here⟩ := picks.transition
    rcases calls : tn'.transFunc with _ | f
    · obtain ⟨rc, outcome, followed⟩ := finishTrace_quiet (s := enterNode current s) picks here calls
      rw [outcome] at trace
      rw [followsOnce_single (by simp) trace, zero]
      constructor
      · intro follows
        refine ⟨fun tn'' here' => ?_, fun isZero m next => (follows isZero m next).2⟩
        cases here.symm.trans here'
        exact calls
      · rintro ⟨-, same⟩ isZero m follows
        have next := same isZero m follows
        exact ⟨followed.mpr (Option.isSome_of_mem next), next⟩
    · obtain ⟨ts, more⟩ := finishTrace_calls (s := enterNode current s) picks here calls
      rw [more] at trace
      refine iff_of_false (not_followsOnce (congrArg Prod.fst trace)) ?_
      rintro ⟨quiet, -⟩
      cases calls.symm.trans (quiet tn' here)

/-- The function of a transition that an option selects is called. -/
theorem followsOnce_name {tn : TransitionNode ν κ} {f : κ} (bound : i < maxNumTransitions)
    (here : transition s.world current i = some tn) (calls : tn.transFunc = some f)
    (named : ∃ e ∈ s.nvps, Names e tn)
    (trace : transitionTrace results current s = finishTrace results current (enterNode current s)
      (withinTrace results s.nvps current i s.nvps s.world)) :
    FollowsOnce results current s ↔
      LastFollowed current s i tn (results f current s.nvps s.world) := by
  rw [withinTrace_of_some here named, calls, take] at trace
  dsimp only at trace
  unfold LastFollowed
  generalize results f current s.nvps s.world = result at trace ⊢
  obtain ⟨code, w⟩ := result
  dsimp only at trace ⊢
  by_cases mountErr : code = mountError
  · rw [if_pos mountErr] at trace
    refine iff_of_true ?_ (.inl mountErr)
    refine (followsOnce_single (by simp) trace).mpr fun good => ?_
    exact absurd (.inr (.inl mountErr)) good.not_failing
  · by_cases token : code = defaultTok ∨ code = nullTok
    · rw [if_neg mountErr, if_pos token] at trace
      refine iff_of_true ?_ (.inr (or_assoc.mp (.inl token)))
      rcases follows : nextToken w current i with _ | m
      · rw [follows] at trace
        refine (followsOnce_single (by simp) trace).mpr fun good m' next => ?_
        cases follows.symm.trans next
      · rw [follows] at trace
        refine (followsOnce_single (by simp) trace).mpr fun good m' next => ?_
        cases follows.symm.trans next
        exact ⟨rfl, rfl⟩
    · rw [if_neg mountErr, if_neg token, finishTrace_cons] at trace
      have zero : Success code ↔ code = 0 := by
        unfold Success
        tauto
      rw [followsOnce_behind (picks_within bound _ w) zero trace]
      -- of the four ways only the last one is left
      rw [or_iff_right mountErr, ← or_assoc, or_iff_right token]
      rfl

end

/-- **When only one transition function is called, and followed.**  For all transitions, options and
results of functions: if the transition that is selected first is followed. -/
theorem followsOnce_iff [DecidableEq ν] (results : Returning ν κ ω) (current : ν)
    (s : EvalState ν κ ω) : FollowsOnce results current s ↔ FirstFollowed results current s := by
  have trace : transitionTrace results current s = finishTrace results current (enterNode current s)
      (selectTrace results s.nvps current maxNumTransitions 0 s.world) := rfl
  have picks : Picks results s.nvps current True s.world (pick s.nvps (s.world.nodes current) 0)
      (selectTrace results s.nvps current maxNumTransitions 0 s.world) := picks_pick (Nat.add_zero _) s.world
  unfold FirstFollowed
  rw [EvalState.node]
  generalize pick s.nvps (s.world.nodes current) 0 = picked at picks ⊢
  generalize selectTrace results s.nvps current maxNumTransitions 0 s.world = r at picks trace
  rcases picked with _ | p
  · obtain ⟨rc, -, outcome⟩ := finishTrace_nothing (s := enterNode current s) picks
    exact iff_of_true (followsOnce_of_quiet (by simp) (trace.trans outcome)) trivial
  · obtain ⟨tn, here⟩ := picks.transition
    rcases calls : tn.transFunc with _ | f
    · -- without a function there is nothing to follow
      obtain ⟨rc, outcome, -⟩ := finishTrace_quiet (s := enterNode current s) picks here calls
      refine iff_of_true (followsOnce_of_quiet (by simp) (trace.trans outcome)) ?_
      cases p with
      | value i =>
        intro tn' here' f calls'
        cases here.symm.trans here'
        rw [calls] at calls'
        cases calls'
      | name i =>
        intro tn' here' f calls'
        cases here.symm.trans here'
        rw [calls] at calls'
        cases calls'
      | byDefault i => trivial
    · cases picks with
      | @value i tn' here' =>
        rw [followsOnce_value here calls trace]
        constructor
        · intro followed tn'' here'' f' calls'
          cases here.symm.trans here''
          cases calls.symm.trans calls'
          exact followed
        · exact fun followed => followed tn here f calls
      | @name i tn' bound here' es named all =>
        obtain rfl := all trivial
        cases here.symm.trans here'
        rw [followsOnce_name bound here calls named trace]
        constructor
        · intro followed tn'' here'' f' calls'
          cases here.symm.trans here''
          cases calls.symm.trans calls'
          exact followed
        · exact fun followed => followed tn here f calls
      | @byDefault i default_ =>
        have took : take results i nullTok tn.transFunc current (enterNode current s).nvps s.world =
            (⟨i, some (results f current s.nvps s.world).1⟩, results f current s.nvps s.world) := by
          rw [calls]
          rfl
        obtain ⟨rc, next, s', outcome, -, good⟩ :=
          finishTrace_byDefault results (s := enterNode current s) default_ here took
        refine iff_of_true ?_ trivial
        refine (followsOnce_single (by simp) (trace.trans outcome)).mpr fun success m follows => ?_
        obtain ⟨rfl, rfl, zero⟩ := good success
        exact ⟨zero.mpr (Option.isSome_of_mem follows), follows⟩

/-- A node with the value `v` and transitions, and a list of options. -/
def stateOf (v : CStr) (tl : List (TransitionNode ℕ Unit)) (nvps : List NameValPair) :
    EvalState ℕ Unit Unit :=
  { world := ⟨fun _ => { mntOptNames := [], val := some v, tl }, [], ()⟩
    nvps, verbosity := 0, hasGetString := false, inputs := [] }

/-- A function that reports `NULL_TOK` for the value of its node. -/
theorem followsOnce_fails :
    ¬ FollowsOnce (fun _ _ _ w => (nullTok, w)) 0 (stateOf (lit "a") [⟨some (lit "a"), some 1, some ()⟩] []) := by
  intro once
  have called := once.followed 0 nullTok (by decide) (.inr (.inl rfl)) nullTok (some 1) _ rfl 1 rfl
  exact absurd called.1 (by decide)

/-! ## The value of the node -/

/-- Transition number `i` is the first with the value of the node. -/
structure FirstMatch (node : ParamNode ν κ) (i : ℕ) : Prop where
  bound : i < maxNumTransitions
  here : ∃ tn ∈ node.tl[i]?, tn.val.isSome ∧ tn.val = node.val
  first : ∀ j < i, ∀ tn ∈ node.tl[j]?, ¬ (tn.val.isSome ∧ tn.val = node.val)

section

variable [DecidableEq ν] (results : Returning ν κ ω) (current : ν) (s : EvalState ν κ ω)

/-- The call follows transition number `i`, and no other one. -/
def FollowsOnly (i : ℕ) : Prop :=
  (transitionTrace results current s).1.map Taken.index = [i] ∧
    ∃ rc s', doTransition results.callbacks current s = .ok (rc, nextToken s'.world current i, s')

end

/-- The first loop selects a transition in front of that with the value of the node, or that one. -/
theorem pickFrom_of_match (nvps : List NameValPair) {node : ParamNode ν κ} {i slots k : ℕ}
    (total : slots + k = maxNumTransitions) (le : k ≤ i) (matches_ : FirstMatch node i) :
    (∃ j < i, (∃ tn ∈ node.tl[j]?, ∃ e ∈ nvps, Names e tn) ∧
        pickFrom nvps node slots k = some (.name j)) ∨
      (∀ j, k ≤ j → j < i → ∀ tn ∈ node.tl[j]?, ∀ e ∈ nvps, ¬ Names e tn) ∧
        pickFrom nvps node slots k = some (.value i) := by
  obtain ⟨bound, ⟨tn, here, same⟩, first⟩ := matches_
  induction slots generalizing k with
  | zero => omega
  | succ slots ih =>
    unfold pickFrom
    rcases Nat.eq_or_lt_of_le le with rfl | less
    · refine .inr ⟨fun j low high => by omega, ?_⟩
      rw [show node.tl[k]? = some tn from here]
      exact if_pos same
    · have inside : k < node.tl.length := by
        have bounded := (List.getElem?_eq_some_iff.mp here).1
        omega
      have there := List.getElem?_eq_getElem inside
      rw [there]
      dsimp only
      rw [if_neg (first k less _ there)]
      by_cases named : ∃ e ∈ nvps, Names e node.tl[k]
      · rw [if_pos named]
        exact .inl ⟨k, less, ⟨_, there, named⟩, rfl⟩
      · rw [if_neg named]
        rcases ih (by omega) less with early | ⟨unnamed, picked⟩
        · exact .inl early
        · refine .inr ⟨fun j low high tn' at_ e among names => ?_, picked⟩
          rcases Nat.eq_or_lt_of_le low with rfl | low
          · cases there.symm.trans at_
            exact named ⟨e, among, names⟩
          · exact unnamed j low high tn' at_ e among names

/-- The transition that is selected first is the first of the record. -/
theorem transitionTrace_head [DecidableEq ν] (results : Returning ν κ ω) {current : ν}
    {s : EvalState ν κ ω} {p : Pick} (picked : pick s.nvps (s.node current) 0 = some p) :
    ∃ code ts, (transitionTrace results current s).1 = ⟨p.index, code⟩ :: ts := by
  have picks : Picks results s.nvps current True s.world (pick s.nvps (s.world.nodes current) 0)
      (selectTrace results s.nvps current maxNumTransitions 0 s.world) := picks_pick (Nat.add_zero _) s.world
  rw [show pick s.nvps (s.world.nodes current) 0 = some p from picked] at picks
  obtain ⟨tn, here⟩ := picks.transition
  rcases calls : tn.transFunc with _ | f
  · obtain ⟨rc, outcome, -⟩ := finishTrace_quiet (s := enterNode current s) picks here calls
    exact ⟨none, [], congrArg Prod.fst outcome⟩
  · obtain ⟨ts, outcome⟩ := finishTrace_calls (s := enterNode current s) picks here calls
    exact ⟨_, ts, outcome⟩

/-- **When the value of a node decides.**  If no option in the list selects a transition in front of the
first one with the value of the node: none of them has the name of an option, or, with any options, no
value at all. -/
theorem followsOnly_iff [DecidableEq ν] (results : Returning ν κ ω) (current : ν)
    (s : EvalState ν κ ω) (i : ℕ) (matches_ : FirstMatch (s.node current) i) :
    FollowsOnly results current s i ↔
      ∀ j < i, ∀ tn ∈ (s.node current).tl[j]?, ∀ e ∈ s.nvps, ¬ Names e tn := by
  rcases pickFrom_of_match s.nvps (Nat.add_zero maxNumTransitions) (Nat.zero_le i) matches_ with
    ⟨j, less, ⟨tn, there, e, among, names⟩, picked⟩ | ⟨unnamed, picked⟩
  · refine iff_of_false ?_ fun unnamed => unnamed j less tn there e among names
    rintro ⟨only, -⟩
    have first : pick s.nvps (s.node current) 0 = some (.name j) := by
      rw [pick, Nat.sub_zero, picked]
      rfl
    obtain ⟨code, ts, trace⟩ := transitionTrace_head results first
    rw [trace, List.map_cons, List.cons.injEq] at only
    exact less.ne only.1
  · refine iff_of_true ?_ fun j less => unnamed j (Nat.zero_le j) less
    have picks : Picks results s.nvps current True s.world (pick s.nvps (s.world.nodes current) 0)
        (selectTrace results s.nvps current maxNumTransitions 0 s.world) := picks_pick (Nat.add_zero _) s.world
    have first : pick s.nvps (s.world.nodes current) 0 = some (.value i) := by
      rw [pick, Nat.sub_zero, show pickFrom s.nvps (s.world.nodes current) _ 0 = _ from picked]
      rfl
    rw [first] at picks
    have trace : transitionTrace results current s = finishTrace results current (enterNode current s)
        (selectTrace results s.nvps current maxNumTransitions 0 s.world) := rfl
    generalize selectTrace results s.nvps current maxNumTransitions 0 s.world = r at picks trace
    cases picks with
    | @value i tn here =>
      have index := take_index results i 0 tn.transFunc current s.nvps s.world
      rcases took : take results i 0 tn.transFunc current s.nvps s.world with ⟨t, code, w⟩
      have outcome := trace.trans (finishTrace_value (s := enterNode current s) i here took)
      have returns : doTransition results.callbacks current s = _ := doTransition_trace s
      rw [took] at index
      rw [outcome] at returns
      refine ⟨?_, _, { enterNode current s with world := w }, returns⟩
      rw [outcome, List.map_singleton, index]

/-- Two ciphers, and an option with the name of the first one. -/
def twoCiphers (value option : CStr) : EvalState ℕ Unit Unit :=
  stateOf value [⟨some (lit "aes"), some 1, none⟩, ⟨some (lit "blowfish"), some 2, none⟩]
    [⟨option, none, false⟩]

theorem twoCiphers_match (option : CStr) :
    FirstMatch ((twoCiphers (lit "blowfish") option).node 0) 1 := by
  refine ⟨by decide, ⟨_, rfl, rfl, rfl⟩, fun j less tn there => ?_⟩
  obtain rfl : j = 0 := by omega
  cases there
  rintro ⟨-, same⟩
  exact absurd (show some (lit "aes") = some (lit "blowfish") from same) (by decide)

theorem followsOnly_twoCiphers :
    FollowsOnly (fun _ _ _ w => (0, w)) 0 (twoCiphers (lit "blowfish") (lit "fast")) 1 := by
  refine (followsOnly_iff _ 0 _ 1 (twoCiphers_match (lit "fast"))).mpr fun j less tn there => ?_
  obtain rfl : j = 0 := by omega
  cases there
  decide

/-- The option diverts the node from its value. -/
theorem followsOnly_fails :
    FirstMatch ((twoCiphers (lit "blowfish") (lit "aes")).node 0) 1 ∧
      ¬ FollowsOnly (fun _ _ _ w => (0, w)) 0 (twoCiphers (lit "blowfish") (lit "aes")) 1 := by
  refine ⟨twoCiphers_match (lit "aes"), ?_⟩
  rintro ⟨only, -⟩
  exact absurd only (by decide)

end Ecryptfs
