import Ecryptfs.Graph.Quiet

/-!
# Invariants of evaluations

Rules for what holds throughout an evaluation, also one that asks the user and whatever it asks.
`allocAndGetVal_inv` is the rule for the values of the nodes, `doTransition_inv` the one for the
callbacks, and `evalStep_inv` puts them together for one turn.
-/

namespace Ecryptfs

variable {ν κ ω : Type}

/-- A property of the state of an evaluation that has not stopped. -/
def Config.Holds (P : EvalState ν κ ω → Prop) : Config ν κ ω → Prop
  | .at _ s => P s
  | .done _ _ s => P s
  | .stopped _ => True

variable [DecidableEq ν]

/-! ## Values -/

/-- A property of states that is kept when the user gives node `n` another value. -/
structure Answerable (n : ν) (P : EvalState ν κ ω → Prop) : Prop where
  val : ∀ u v, P u → P (u.setNode n { u.node n with val := v })
  inputs : ∀ u inputs, P u → P { u with inputs := inputs }

variable {n : ν} {P : EvalState ν κ ω → Prop} {s t : EvalState ν κ ω} {rc : ℤ}

theorem getValue_inv (answerable : Answerable n P) (start : P s)
    {inputs : List (Except {rc : ℤ // rc < 0} CStr)} (h : getValue n s inputs = .ok (rc, t)) : P t := by
  induction inputs with
  | nil => cases h
  | cons answer rest ih =>
    cases answer with
    | error code =>
      obtain ⟨-, rfl⟩ := Prod.mk.inj (Except.ok.inj h)
      exact answerable.inputs s rest start
    | ok text =>
      rw [getValue] at h
      split at h
      · cases h
      · obtain ⟨-, rfl⟩ := Prod.mk.inj (Except.ok.inj h)
        exact answerable.inputs _ rest (answerable.val s _ start)
      · exact ih h

omit [DecidableEq ν] in
theorem getString_inv {answer : Except ℤ CStr}
    (inputs : ∀ u inputs, P u → P { u with inputs := inputs }) (start : P s)
    (h : getString s = .ok (answer, t)) : P t := by
  unfold getString at h
  split at h
  · cases h
  · obtain ⟨-, rfl⟩ := Prod.mk.inj (Except.ok.inj h)
    exact inputs s _ start
  · obtain ⟨-, rfl⟩ := Prod.mk.inj (Except.ok.inj h)
    exact inputs s _ start

theorem obtainValue_inv (answerable : Answerable n P) {tries : ℕ} (start : P s)
    (h : obtainValue n tries s = .ok (rc, t)) : P t := by
  have given : ∀ u v, P u → (Except.ok (0, u.setNode n { u.node n with val := v }) :
      Except Stop (ℤ × EvalState ν κ ω)) = .ok (rc, t) → P t := by
    intro u v inP h
    obtain ⟨-, rfl⟩ := Prod.mk.inj (Except.ok.inj h)
    exact answerable.val u v inP
  induction tries generalizing s with
  | zero =>
    obtain ⟨-, rfl⟩ := Prod.mk.inj (Except.ok.inj h)
    exact start
  | succ tries ih =>
    rw [obtainValue] at h
    split at h
    · cases h
    · next asked =>
      obtain ⟨-, rfl⟩ := Prod.mk.inj (Except.ok.inj h)
      exact getString_inv answerable.inputs start asked
    · next text u asked =>
      have inP := answerable.val u (some text) (getString_inv answerable.inputs start asked)
      simp only at h
      split at h
      · exact ih inP h
      · split at h
        · split at h
          · cases h
          · next asked' =>
            obtain ⟨-, rfl⟩ := Prod.mk.inj (Except.ok.inj h)
            exact getString_inv answerable.inputs inP asked'
          · next asked' =>
            have inP' := getString_inv answerable.inputs inP asked'
            split at h
            · exact ih (answerable.val _ none inP') h
            · exact given _ _ inP' h
        · exact given _ _ inP h

theorem askVal_inv (answerable : Answerable n P) (start : P s) (h : askVal n s = .ok (rc, t)) :
    P t := by
  have given : ∀ {rc'}, (Except.ok (rc', s) : Except Stop (ℤ × EvalState ν κ ω)) = .ok (rc, t) →
      P t := by
    intro rc' h
    obtain ⟨-, rfl⟩ := Prod.mk.inj (Except.ok.inj h)
    exact start
  unfold askVal at h
  simp only at h
  split_ifs at h
  · exact given h
  · exact given h
  · exact given h
  · unfold promptVal at h
    simp only at h
    split_ifs at h
    · exact given h
    · split at h
      · obtain ⟨-, rfl⟩ := Prod.mk.inj (Except.ok.inj h)
        exact answerable.val s _ start
      · exact getValue_inv answerable start h
    · exact obtainValue_inv answerable start h

/-- **The invariant rule for values.**  What is kept when values are retrieved or given by the user
holds after `alloc_and_get_val`. -/
theorem allocAndGetVal_inv (answerable : Answerable n P) (start : P s)
    (own : (s.node n).val = none → P (retrieve n s))
    (others : (s.node n).flags.allowImplicitTransition = true → ∀ u m, P u →
      (∃ tn ∈ (s.node n).tl, tn.nextToken = some m) → P (retrieve m u))
    (h : allocAndGetVal n s = .ok (rc, t)) : P t := by
  rcases allocAndGetVal_asks start own others (fun _ u v inP => answerable.val u (some v) inP) h with
    ⟨-, inP⟩ | ⟨u, inP, asked⟩
  · exact inP
  · exact askVal_inv answerable inP asked

/-- The transitions of the nodes. -/
def World.links (w : World ν κ ω) (n : ν) : List (TransitionNode ν κ) := (w.nodes n).tl

/-- Looking for values leaves the transitions, the stack and the further state alone. -/
theorem allocAndGetVal_links (h : allocAndGetVal n s = .ok (rc, t)) :
    t.world.links = s.world.links ∧ t.world.stack = s.world.stack ∧ t.world.ext = s.world.ext := by
  let Same (u : EvalState ν κ ω) : Prop :=
    u.world.links = s.world.links ∧ u.world.stack = s.world.stack ∧ u.world.ext = s.world.ext
  have set : ∀ (u : EvalState ν κ ω) m node, node.tl = (u.node m).tl → Same u →
      Same (u.setNode m node) := by
    rintro u m node tl ⟨links, rest⟩
    refine ⟨?_, rest⟩
    rw [← links]
    funext k
    have setNode := node_setNode u m k node
    unfold World.links
    unfold EvalState.node at setNode tl
    rw [setNode]
    split_ifs with here
    · rw [here, tl]
    · rfl
  have start : Same s := ⟨rfl, rfl, rfl⟩
  refine allocAndGetVal_inv (P := Same) ⟨fun u v same => ?_, fun u _ same => same⟩ start (fun _ => ?_)
    (fun _ u m same _ => ?_) h
  · exact set u n _ rfl same
  · exact set s n _ (retrieveVal_tl _ _) start
  · exact set u m _ (retrieveVal_tl _ _) same

/-! ## Transitions -/

section

variable {call : Callbacks ν κ ω} {Q : World ν κ ω → Prop} {nvps : List NameValPair}
  {w w' : World ν κ ω} {next : Option ν}

/-- The node after `n` is `n` itself, or a transition of `n` leads to it. -/
def LeadsTo (w : World ν κ ω) (n : ν) (next : Option ν) : Prop :=
  ∀ m, next = some m → m = n ∨ ∃ tn ∈ (w.nodes n).tl, tn.nextToken = some m

omit [DecidableEq ν] in
theorem leadsTo_nextToken {i : ℕ} (found : nextToken w n i = next) : LeadsTo w n next := by
  rintro m rfl
  obtain ⟨tn, there, leads⟩ := Option.bind_eq_some_iff.mp found
  exact .inr ⟨tn, List.mem_of_getElem? there, leads⟩

omit [DecidableEq ν] in
theorem leadsTo_none : LeadsTo w n none := fun m h => by cases h

omit [DecidableEq ν] in
theorem nvpLoop_inv (kept : ∀ w w', Q w → Called call n nvps w w' → Q w') {es : List NameValPair}
    {i : ℕ} (start : Q w) :
    (∀ w', nvpLoop call nvps n i es w = .ok (.go w') → Q w') ∧
    (∀ rc next w', nvpLoop call nvps n i es w = .ok (.ret rc next w') → Q w' ∧ LeadsTo w' n next) := by
  have stay : (∀ w', (Except.ok (.go w) : Except Stop (Flow ν κ ω)) = .ok (.go w') → Q w') ∧
      ∀ rc next w', (Except.ok (.go w) : Except Stop (Flow ν κ ω)) = .ok (.ret rc next w') →
        Q w' ∧ LeadsTo w' n next := by
    refine ⟨fun w' h => ?_, fun rc next w' h => by cases h⟩
    obtain rfl := Flow.go.inj (Except.ok.inj h)
    exact start
  induction es generalizing w with
  | nil => exact stay
  | cons e es ih =>
    rw [nvpLoop]
    split
    · exact stay
    · next tn taken =>
      split
      · exact ih start stay
      · split
        · exact ⟨fun w' h => (by cases h), fun rc next w' h => (by cases h)⟩
        · next code v called =>
          have inQ := transFunc_kept kept start taken called
          split
          · refine ⟨fun w' h => (by cases h), fun rc next w' h => ?_⟩
            obtain ⟨-, rfl, rfl⟩ := Flow.ret.inj (Except.ok.inj h)
            exact ⟨inQ, leadsTo_none⟩
          · split
            · refine ⟨fun w' h => (by split at h <;> cases h), fun rc next w' h => ?_⟩
              split at h
              · next found =>
                obtain ⟨-, rfl, rfl⟩ := Flow.ret.inj (Except.ok.inj h)
                exact ⟨inQ, leadsTo_nextToken found⟩
              · obtain ⟨-, rfl, rfl⟩ := Flow.ret.inj (Except.ok.inj h)
                exact ⟨inQ, leadsTo_none⟩
            · refine ih inQ ⟨fun w' h => ?_, fun rc next w' h => by cases h⟩
              obtain rfl := Flow.go.inj (Except.ok.inj h)
              exact inQ

omit [DecidableEq ν] in
theorem selectLoop_inv (kept : ∀ w w', Q w → Called call n nvps w w' → Q w') {slots i : ℕ}
    (start : Q w) :
    (∀ w', selectLoop call nvps n slots i w = .ok (.passed w') → Q w') ∧
    (∀ j w', selectLoop call nvps n slots i w = .ok (.matched j w') → Q w') ∧
    (∀ rc next w', selectLoop call nvps n slots i w = .ok (.ret rc next w') →
      Q w' ∧ LeadsTo w' n next) := by
  have stay : ∀ {w}, Q w → ∀ w', (Except.ok (.passed w) : Except Stop (Selected ν κ ω)) =
      .ok (.passed w') → Q w' := by
    intro w inQ w' h
    obtain rfl := Selected.passed.inj (Except.ok.inj h)
    exact inQ
  induction slots generalizing i w with
  | zero => exact ⟨stay start, fun j w' h => (by cases h), fun rc next w' h => (by cases h)⟩
  | succ slots ih =>
    rw [selectLoop]
    split
    · exact ⟨stay start, fun j w' h => (by cases h), fun rc next w' h => (by cases h)⟩
    · split
      · refine ⟨fun w' h => (by cases h), fun j w' h => ?_, fun rc next w' h => (by cases h)⟩
        obtain ⟨-, rfl⟩ := Selected.matched.inj (Except.ok.inj h)
        exact start
      · split
        · exact ⟨fun w' h => (by cases h), fun j w' h => (by cases h), fun rc next w' h => (by cases h)⟩
        · next looped =>
          refine ⟨fun w' h => (by cases h), fun j w' h => (by cases h), fun rc next w' h => ?_⟩
          obtain ⟨rfl, rfl, rfl⟩ := Selected.ret.inj (Except.ok.inj h)
          exact (nvpLoop_inv kept start).2 _ _ _ looped
        · next v looped => exact ih ((nvpLoop_inv kept start).1 v looped)

omit [DecidableEq ν] in
theorem followMatch_inv (kept : ∀ w w', Q w → Called call n nvps w w' → Q w') {i : ℕ} (start : Q w)
    (h : followMatch call nvps n i w = .ok (rc, next, w')) : Q w' ∧ LeadsTo w' n next := by
  unfold followMatch at h
  split at h
  · cases h
  · next code v called =>
    have inQ : Q v := by
      cases taken : transition w n i with
      | none =>
        rw [taken] at called
        obtain ⟨-, rfl⟩ := Prod.mk.inj (Except.ok.inj called)
        exact start
      | some tn =>
        rw [taken] at called
        exact transFunc_kept kept start taken called
    split at h
    · next found =>
      obtain ⟨-, rfl, rfl⟩ := Prod.mk.inj (Except.ok.inj h) |>.imp_right Prod.mk.inj
      exact ⟨inQ, leadsTo_nextToken found⟩
    · obtain ⟨-, rfl, rfl⟩ := Prod.mk.inj (Except.ok.inj h) |>.imp_right Prod.mk.inj
      exact ⟨inQ, leadsTo_none⟩

omit [DecidableEq ν] in
theorem defaultLoop_inv (kept : ∀ w w', Q w → Called call n s.nvps w w' → Q w') {slots i : ℕ}
    (start : Q s.world) (h : defaultLoop call s n slots i = .ok (some (rc, next, t))) :
    (t.nvps = s.nvps ∧ t.verbosity = s.verbosity) ∧ Q t.world ∧ LeadsTo t.world n next := by
  induction slots generalizing i with
  | zero => cases h
  | succ slots ih =>
    rw [defaultLoop] at h
    split at h
    · cases h
    · next tn taken =>
      split at h
      · exact ih h
      · split at h
        · cases h
        · next code w called =>
          have inQ := transFunc_kept kept start taken called
          simp only at h
          split_ifs at h
          · simp only [Except.ok.injEq, Option.some.injEq, Prod.mk.injEq] at h
            obtain ⟨-, rfl, rfl⟩ := h
            exact ⟨⟨rfl, rfl⟩, inQ, leadsTo_none⟩
          · simp only [Except.ok.injEq, Option.some.injEq, Prod.mk.injEq] at h
            obtain ⟨-, rfl, rfl⟩ := h
            exact ⟨⟨rfl, rfl⟩, inQ, fun m same => .inl (Option.some.inj same).symm⟩
          · simp only [Except.ok.injEq, Option.some.injEq, Prod.mk.injEq] at h
            obtain ⟨-, rfl, rfl⟩ := h
            exact ⟨⟨rfl, rfl⟩, inQ, leadsTo_none⟩
          · simp only [Except.ok.injEq, Option.some.injEq, Prod.mk.injEq] at h
            obtain ⟨-, rfl, rfl⟩ := h
            exact ⟨⟨rfl, rfl⟩, inQ, leadsTo_none⟩
          · split at h
            · next found =>
              simp only [Except.ok.injEq, Option.some.injEq, Prod.mk.injEq] at h
              obtain ⟨-, rfl, rfl⟩ := h
              exact ⟨⟨rfl, rfl⟩, inQ, leadsTo_nextToken found⟩
            · simp only [Except.ok.injEq, Option.some.injEq, Prod.mk.injEq] at h
              obtain ⟨-, rfl, rfl⟩ := h
              exact ⟨⟨rfl, rfl⟩, inQ, leadsTo_none⟩

/-- **The invariant rule for callbacks.**  The list stays, what the callbacks of node `n` preserve
holds after a transition from `n`, and the next node is one that `n` leads to. -/
theorem doTransition_inv (kept : ∀ w w', Q w → Called call n s.nvps w w' → Q w') (start : Q s.world)
    (h : doTransition call n s = .ok (rc, next, t)) :
    (t.nvps = s.nvps ∧ t.verbosity = s.verbosity) ∧ Q t.world ∧ LeadsTo t.world n next := by
  unfold doTransition at h
  simp only at h
  obtain ⟨passed, matched, returned⟩ :=
    @selectLoop_inv _ _ _ n call Q s.nvps s.world kept maxNumTransitions 0 start
  split at h
  · cases h
  · next i w found =>
    split at h
    · cases h
    · next followed =>
      obtain ⟨rfl, rfl, rfl⟩ := Prod.mk.inj (Except.ok.inj h) |>.imp_right Prod.mk.inj
      exact ⟨⟨rfl, rfl⟩, followMatch_inv kept (matched i w found) followed⟩
  · next found =>
    obtain ⟨rfl, rfl, rfl⟩ := Prod.mk.inj (Except.ok.inj h) |>.imp_right Prod.mk.inj
    exact ⟨⟨rfl, rfl⟩, returned _ _ _ found⟩
  · next w found =>
    have inQ := passed w found
    split at h
    · cases h
    · next looped =>
      obtain rfl := Except.ok.inj h
      obtain ⟨nvps, rest⟩ := defaultLoop_inv (by exact kept) inQ looped
      exact ⟨nvps, rest⟩
    · obtain ⟨-, rfl, rfl⟩ := Prod.mk.inj (Except.ok.inj h) |>.imp_right Prod.mk.inj
      exact ⟨⟨rfl, rfl⟩, inQ, leadsTo_none⟩

theorem allocAndGetVal_verbosity (h : allocAndGetVal n s = .ok (rc, t)) :
    t.verbosity = s.verbosity := by
  refine allocAndGetVal_inv (P := fun u => u.verbosity = s.verbosity)
    ⟨fun u v same => same, fun u inputs same => same⟩ rfl (fun _ => rfl) (fun _ u m same _ => same) h

/-- One turn: what holds after `alloc_and_get_val` and is preserved by the callbacks holds in the
next state, and the next node is one that the node leads to. -/
theorem evalStep_inv {I : World ν κ ω → List NameValPair → Prop} {c : Config ν κ ω}
    (alloc : ∀ rc t, allocAndGetVal n s = .ok (rc, t) → I t.world t.nvps)
    (kept : ∀ w w' nvps, I w nvps → Called call n nvps w w' → I w' nvps)
    (h : evalStep call (.at n s) = some c) :
    c.Holds (fun t => I t.world t.nvps) ∧ ∀ m t, c = .at m t → LeadsTo t.world n (some m) := by
  rw [evalStep] at h
  split at h
  · obtain rfl := Option.some.inj h
    exact ⟨trivial, fun m t same => by cases same⟩
  · next rc u allocated =>
    have inI := alloc rc u allocated
    split_ifs at h
    · obtain rfl := Option.some.inj h
      exact ⟨inI, fun m t same => by cases same⟩
    · split at h
      · obtain rfl := Option.some.inj h
        exact ⟨trivial, fun m t same => by cases same⟩
      · next rc' next u' transitioned =>
        obtain ⟨⟨nvps, -⟩, inI', leads⟩ := doTransition_inv (Q := fun w => I w u.nvps)
          (fun w w' => kept w w' u.nvps) inI transitioned
        have inI'' : I u'.world u'.nvps := by
          rw [nvps]
          exact inI'
        split_ifs at h
        · obtain rfl := Option.some.inj h
          exact ⟨inI'', fun m t same => by cases same⟩
        · split at h
          · obtain rfl := Option.some.inj h
            refine ⟨inI'', fun m t same => ?_⟩
            obtain ⟨rfl, rfl⟩ := Config.at.inj same
            exact leads
          · obtain rfl := Option.some.inj h
            exact ⟨trivial, fun m t same => by cases same⟩

/-- Where a turn comes to: it stops, it ends at its node, or it goes on to another node by a
transition, and the verbosity stays. -/
theorem evalStep_cases {c : Config ν κ ω} (h : evalStep call (.at n s) = some c) :
    (∃ why, c = .stopped why) ∨ (∃ rc t, c = .done rc n t) ∨
      ∃ t m s', c = .at m s' ∧ s'.verbosity = s.verbosity ∧ allocAndGetVal n s = .ok (0, t) ∧
        doTransition call n t = .ok (0, some m, s') := by
  rw [evalStep] at h
  split at h
  · exact .inl ⟨_, (Option.some.inj h).symm⟩
  · next rc t allocated =>
    split_ifs at h with failed
    · exact .inr (.inl ⟨_, _, (Option.some.inj h).symm⟩)
    · obtain rfl := not_not.mp failed
      split at h
      · exact .inl ⟨_, (Option.some.inj h).symm⟩
      · next rc' next s' transitioned =>
        split_ifs at h with failed'
        · exact .inr (.inl ⟨_, _, (Option.some.inj h).symm⟩)
        · obtain rfl := not_not.mp failed'
          split at h
          · next m =>
            obtain ⟨⟨-, verbosity⟩, -⟩ := doTransition_inv (Q := fun _ => True)
              (fun _ _ _ _ => trivial) trivial transitioned
            exact .inr (.inr ⟨t, m, s', (Option.some.inj h).symm,
              verbosity.trans (allocAndGetVal_verbosity allocated), allocated, transitioned⟩)
          · exact .inl ⟨_, (Option.some.inj h).symm⟩

/-! ## Nodes that only lead on by value -/

/-- The transition functions of node `n` never tell where to go, and there is no default. -/
def Mute (call : Callbacks ν κ ω) (nvps : List NameValPair) (n : ν) (w : World ν κ ω) : Prop :=
  ∀ tn ∈ (w.nodes n).tl, tn.val ≠ some (lit "default") ∧ ∃ f, tn.transFunc = some f ∧
    ∀ code w', call f n nvps w = .ok (code, w') →
      code ≠ mountError ∧ ¬ (code = defaultTok ∨ code = nullTok)

omit [DecidableEq ν] in
theorem nvpLoop_mute (kept : ∀ w w', Q w → Called call n nvps w w' → Q w')
    (mute : ∀ w, Q w → Mute call nvps n w) {es : List NameValPair} {i : ℕ} (start : Q w) :
    nvpLoop call nvps n i es w ≠ .ok (.ret rc next w') := by
  induction es generalizing w with
  | nil => exact fun h => by cases h
  | cons e es ih =>
    rw [nvpLoop]
    split
    · exact fun h => by cases h
    · next tn taken =>
      obtain ⟨-, f, isFunc, codes⟩ := mute w start tn (List.mem_of_getElem? taken)
      split
      · exact ih start
      · split
        · exact fun h => by cases h
        · next code v called =>
          have inQ := transFunc_kept kept start taken called
          rw [isFunc] at called
          obtain ⟨noError, noToken⟩ := codes code v called
          rw [if_neg noError, if_neg noToken]
          exact ih inQ

omit [DecidableEq ν] in
theorem selectLoop_mute (kept : ∀ w w', Q w → Called call n nvps w w' → Q w')
    (mute : ∀ w, Q w → Mute call nvps n w) {slots i : ℕ} (start : Q w) :
    selectLoop call nvps n slots i w ≠ .ok (.ret rc next w') := by
  induction slots generalizing i w with
  | zero => exact fun h => by cases h
  | succ slots ih =>
    rw [selectLoop]
    split
    · exact fun h => by cases h
    · split
      · exact fun h => by cases h
      · split
        · exact fun h => by cases h
        · next looped => exact absurd looped (nvpLoop_mute kept mute start)
        · next v looped => exact ih ((nvpLoop_inv kept start).1 v looped)

omit [DecidableEq ν] in
/-- A transition that is selected by value has the value of the node. -/
theorem selectLoop_value {slots i j : ℕ}
    (h : selectLoop call nvps n slots i w = .ok (.matched j w')) :
    ∃ tn, transition w' n j = some tn ∧ tn.val.isSome ∧ tn.val = (w'.nodes n).val := by
  induction slots generalizing i w with
  | zero => cases h
  | succ slots ih =>
    rw [selectLoop] at h
    split at h
    · cases h
    · next tn taken =>
      split at h
      · next same =>
        obtain ⟨rfl, rfl⟩ := Selected.matched.inj (Except.ok.inj h)
        exact ⟨tn, taken, same⟩
      · split at h
        · cases h
        · cases h
        · exact ih h

omit [DecidableEq ν] in
theorem defaultLoop_none (noDefault : ∀ tn ∈ (s.node n).tl, tn.val ≠ some (lit "default"))
    (slots i : ℕ) : defaultLoop call s n slots i = .ok none := by
  induction slots generalizing i with
  | zero => rfl
  | succ slots ih =>
    rw [defaultLoop]
    split
    · rfl
    · next tn taken =>
      rw [if_pos (noDefault tn (List.mem_of_getElem? taken))]
      exact ih (i + 1)

/-- **A mute node only leads on by its value.** -/
theorem doTransition_byValue {m : ν} (kept : ∀ w w', Q w → Called call n s.nvps w w' → Q w')
    (mute : ∀ w, Q w → Mute call s.nvps n w) (start : Q s.world)
    (h : doTransition call n s = .ok (0, some m, t)) :
    ∃ w i tn, Q w ∧ Followed call n s.nvps m w t.world i tn 0 0 ∧ tn.val.isSome ∧
      tn.val = (w.nodes n).val := by
  unfold doTransition at h
  simp only at h
  obtain ⟨passed, matched, -⟩ :=
    @selectLoop_inv _ _ _ n call Q s.nvps s.world kept maxNumTransitions 0 start
  split at h
  · cases h
  · next i w found =>
    split at h
    · cases h
    · next followed =>
      obtain ⟨rfl, rfl, rfl⟩ := Prod.mk.inj (Except.ok.inj h) |>.imp_right Prod.mk.inj
      obtain ⟨tn, followed⟩ := followMatch_kept followed
      obtain ⟨tn', taken, some_, same⟩ := selectLoop_value found
      obtain rfl := Option.some.inj (followed.taken.symm.trans taken)
      exact ⟨w, i, tn, matched i w found, followed, some_, same⟩
  · next found => exact absurd found (selectLoop_mute kept mute start)
  · next w found =>
    have noDefault : ∀ tn ∈ (w.nodes n).tl, tn.val ≠ some (lit "default") :=
      fun tn among => (mute w (passed w found) tn among).1
    rw [defaultLoop_none (by exact noDefault)] at h
    obtain ⟨-, same, -⟩ := Prod.mk.inj (Except.ok.inj h) |>.imp_right Prod.mk.inj
    cases same

end

end Ecryptfs
