import Ecryptfs.Graph.Engine

/-!
# What the return value of an evaluation tells

`ecryptfs_eval_decision_graph` takes every positive code but `MOUNT_ERROR` for success.  The end of
a graph is such a code, but so are the codes of callbacks on transitions selected by value, the
missing next node of such a transition, and the positive error of a prompt that gives up.
`eval_zero_terminal_iff` says that these are the only ways in which an evaluation that stops in the
middle of the graph is reported as a success.
-/

namespace Ecryptfs

variable {ν κ ω : Type}

/-! ## Codes of the value functions -/

/-- The codes of `alloc_and_get_val`. -/
def AllocCode (rc : ℤ) : Prop := rc = 0 ∨ rc < 0 ∨ rc = mountError ∨ rc = einval

/-- Retrieving a value for a node keeps its transitions. -/
theorem retrieveVal_tl (node : ParamNode ν κ) (nvps : List NameValPair) :
    (retrieveVal node nvps).2.1.tl = node.tl := by
  unfold retrieveVal ParamNode.receive
  split
  · dsimp only
    split <;> rfl
  · split
    · split_ifs <;> rfl
    · rfl

/-- A change of the state that keeps the transitions of every node. -/
def SameTransitions (s s' : EvalState ν κ ω) : Prop := ∀ m, (s'.node m).tl = (s.node m).tl

theorem SameTransitions.trans {s t u : EvalState ν κ ω} (first : SameTransitions s t)
    (second : SameTransitions t u) : SameTransitions s u :=
  fun m => (second m).trans (first m)

theorem SameTransitions.of_world {s t : EvalState ν κ ω} (same : t.world = s.world) :
    SameTransitions s t := by
  intro m
  rw [EvalState.node, same]
  rfl

/-- The transition of a node that has only one. -/
theorem transition_only {w : World ν κ ω} {n : ν} {tn : TransitionNode ν κ}
    (only : (w.nodes n).tl = [tn]) : transition w n 0 = some tn := by
  rw [transition, only]
  rfl

theorem nextToken_first {w : World ν κ ω} {n : ν} {tn : TransitionNode ν κ}
    (only : (w.nodes n).tl = [tn]) : nextToken w n 0 = tn.nextToken := by
  rw [nextToken, transition_only only]
  rfl

theorem getString_node {s s' : EvalState ν κ ω} {answer : Except ℤ CStr}
    (h : getString s = .ok (answer, s')) : s'.world = s.world := by
  unfold getString at h
  split at h
  · cases h
  · simp only [Except.ok.injEq, Prod.mk.injEq] at h
    rw [← h.2]
  · simp only [Except.ok.injEq, Prod.mk.injEq] at h
    rw [← h.2]

theorem getString_error {s s' : EvalState ν κ ω} {rc : ℤ}
    (h : getString s = .ok (.error rc, s')) : rc < 0 := by
  unfold getString at h
  split at h
  · cases h
  · next e _ _ =>
    simp only [Except.ok.injEq, Prod.mk.injEq, Except.error.injEq] at h
    rw [← h.1]
    exact e.2
  · simp at h

variable [DecidableEq ν] {call : Callbacks ν κ ω}

theorem World.nodes_setNode_self (w : World ν κ ω) (n : ν) (node : ParamNode ν κ) :
    (w.setNode n node).nodes n = node := by
  simp [World.setNode]

theorem World.nodes_setNode_of_ne (w : World ν κ ω) {n m : ν} (node : ParamNode ν κ) (other : m ≠ n) :
    (w.setNode n node).nodes m = w.nodes m := by
  simp [World.setNode, other]

theorem World.setNode_comm (w : World ν κ ω) {n m : ν} (node node' : ParamNode ν κ) (other : n ≠ m) :
    (w.setNode n node).setNode m node' = (w.setNode m node').setNode n node := by
  unfold World.setNode
  rw [Function.update_comm other]

theorem World.setNode_setNode (w : World ν κ ω) (n : ν) (node node' : ParamNode ν κ) :
    (w.setNode n node).setNode n node' = w.setNode n node' := by
  unfold World.setNode
  rw [Function.update_idem]

theorem node_setNode (s : EvalState ν κ ω) (n m : ν) (node : ParamNode ν κ) :
    (s.setNode n node).node m = if m = n then node else s.node m := by
  simp [EvalState.setNode, EvalState.node, World.setNode, Function.update_apply]

theorem SameTransitions.setNode {s s' : EvalState ν κ ω} (same : SameTransitions s s') {n : ν}
    {node : ParamNode ν κ} (tl : node.tl = (s'.node n).tl) :
    SameTransitions s (s'.setNode n node) := by
  intro m
  rw [node_setNode]
  split_ifs with h
  · rw [tl, ← h, same m]
  · exact same m

theorem implicitLoop_tl {n : ν} {retrieved : Bool} {tl : List (TransitionNode ν κ)}
    {s s' : EvalState ν κ ω} {found : Bool}
    (h : implicitLoop n retrieved tl s = .ok (found, s')) : SameTransitions s s' := by
  induction tl generalizing retrieved s with
  | nil =>
    simp only [implicitLoop, Except.ok.injEq, Prod.mk.injEq] at h
    obtain ⟨-, rfl⟩ := h
    exact fun _ => rfl
  | cons tn tl ih =>
    have start : SameTransitions s s := fun _ => rfl
    rw [implicitLoop] at h
    split at h
    · split_ifs at h
      exact ih h
    · next m _ =>
      have kept := retrieveVal_tl (s.node m) s.nvps
      split at h
      · next node nvps found_ =>
        rw [found_] at kept
        simp only [Except.ok.injEq, Prod.mk.injEq] at h
        obtain ⟨-, rfl⟩ := h
        exact SameTransitions.setNode (start.setNode kept) rfl
      · next node nvps none_ =>
        rw [none_] at kept
        exact fun k => (ih h k).trans (start.setNode kept k)

theorem getValue_spec {n : ν} {s s' : EvalState ν κ ω} {rc : ℤ}
    {inputs : List (Except {rc : ℤ // rc < 0} CStr)} (h : getValue n s inputs = .ok (rc, s')) :
    (rc = 0 ∨ rc < 0) ∧ SameTransitions s s' := by
  induction inputs with
  | nil => cases h
  | cons input rest ih =>
    have start : SameTransitions s s := fun _ => rfl
    cases input with
    | error e =>
      simp only [getValue, Except.ok.injEq, Prod.mk.injEq] at h
      obtain ⟨rfl, rfl⟩ := h
      exact ⟨.inr e.2, fun _ => rfl⟩
    | ok text =>
      rw [getValue] at h
      split at h
      · cases h
      · simp only [Except.ok.injEq, Prod.mk.injEq] at h
        obtain ⟨rfl, rfl⟩ := h
        exact ⟨.inl rfl, start.setNode rfl⟩
      · exact ih h

theorem SameTransitions.set (s : EvalState ν κ ω) (n : ν) {node : ParamNode ν κ}
    (tl : node.tl = (s.node n).tl) : SameTransitions s (s.setNode n node) :=
  SameTransitions.setNode (fun _ => rfl) tl

theorem obtainValue_spec {n : ν} {tries : ℕ} {s s' : EvalState ν κ ω} {rc : ℤ}
    (h : obtainValue n tries s = .ok (rc, s')) :
    (rc = 0 ∨ rc < 0 ∨ rc = einval) ∧ SameTransitions s s' := by
  induction tries generalizing s with
  | zero =>
    simp only [obtainValue, Except.ok.injEq, Prod.mk.injEq] at h
    obtain ⟨rfl, rfl⟩ := h
    exact ⟨.inr (.inr rfl), fun _ => rfl⟩
  | succ tries ih =>
    rw [obtainValue] at h
    split at h
    · cases h
    · next rc' t got =>
      simp only [Except.ok.injEq, Prod.mk.injEq] at h
      obtain ⟨rfl, rfl⟩ := h
      exact ⟨.inr (.inl (getString_error got)), .of_world (getString_node got)⟩
    · next text t got =>
      have first : SameTransitions s (t.setNode n { t.node n with val := some text }) :=
        (SameTransitions.of_world (getString_node got)).trans (.set t n rfl)
      have obtained : ∀ u : EvalState ν κ ω, SameTransitions s u →
          (Except.ok (0, u.setNode n { u.node n with
            val := if text = [] then (u.node n).suggestedVal else some text }) :
              Except Stop (ℤ × EvalState ν κ ω)) = .ok (rc, s') →
          (rc = 0 ∨ rc < 0 ∨ rc = einval) ∧ SameTransitions s s' := by
        intro u same h
        simp only [Except.ok.injEq, Prod.mk.injEq] at h
        obtain ⟨rfl, rfl⟩ := h
        exact ⟨.inl rfl, same.setNode rfl⟩
      simp only at h
      split at h
      · exact ⟨(ih h).1, first.trans (ih h).2⟩
      · split at h
        · split at h
          · cases h
          · next u got' =>
            simp only [Except.ok.injEq, Prod.mk.injEq] at h
            obtain ⟨rfl, rfl⟩ := h
            exact ⟨.inr (.inl (by decide)), first.trans (.of_world (getString_node got'))⟩
          · next verify u got' =>
            have second := first.trans (.of_world (getString_node got'))
            split at h
            · have third : SameTransitions s (u.setNode n { u.node n with val := none }) :=
                second.setNode rfl
              exact ⟨(ih h).1, third.trans (ih h).2⟩
            · exact obtained u second h
        · exact obtained _ first h

theorem promptVal_spec {n : ν} {s s' : EvalState ν κ ω} {rc : ℤ}
    (h : promptVal n s = .ok (rc, s')) : AllocCode rc ∧ SameTransitions s s' := by
  unfold promptVal at h
  simp only at h
  split_ifs at h
  · simp only [Except.ok.injEq, Prod.mk.injEq] at h
    obtain ⟨rfl, rfl⟩ := h
    exact ⟨.inr (.inr (.inl rfl)), fun _ => rfl⟩
  · split at h
    · simp only [Except.ok.injEq, Prod.mk.injEq] at h
      obtain ⟨rfl, rfl⟩ := h
      exact ⟨.inl rfl, .set s n rfl⟩
    · obtain ⟨code, same⟩ := getValue_spec h
      exact ⟨code.imp_right .inl, same⟩
  · obtain ⟨code, same⟩ := obtainValue_spec h
    exact ⟨code.imp_right (Or.imp_right .inr), same⟩

theorem askVal_spec {n : ν} {s s' : EvalState ν κ ω} {rc : ℤ} (h : askVal n s = .ok (rc, s')) :
    AllocCode rc ∧ SameTransitions s s' := by
  have returned : (Except.ok (0, s) : Except Stop (ℤ × EvalState ν κ ω)) = .ok (rc, s') →
      AllocCode rc ∧ SameTransitions s s' := by
    intro h
    simp only [Except.ok.injEq, Prod.mk.injEq] at h
    obtain ⟨rfl, rfl⟩ := h
    exact ⟨.inl rfl, fun _ => rfl⟩
  unfold askVal at h
  simp only at h
  split_ifs at h
  · exact returned h
  · exact returned h
  · exact returned h
  · exact promptVal_spec h

/-- `alloc_and_get_val` returns one of a few codes and keeps all transitions. -/
theorem allocAndGetVal_spec {n : ν} {s s' : EvalState ν κ ω} {rc : ℤ}
    (h : allocAndGetVal n s = .ok (rc, s')) : AllocCode rc ∧ SameTransitions s s' := by
  unfold allocAndGetVal at h
  split_ifs at h with given
  · simp only [Except.ok.injEq, Prod.mk.injEq] at h
    obtain ⟨rfl, rfl⟩ := h
    exact ⟨.inl rfl, fun _ => rfl⟩
  · have kept := retrieveVal_tl (s.node n) s.nvps
    split at h
    next retrieved node nvps found =>
    rw [found] at kept
    have first : SameTransitions s { s.setNode n node with nvps := nvps } :=
      SameTransitions.set s n kept
    simp only at h
    split_ifs at h
    · simp only [Except.ok.injEq, Prod.mk.injEq] at h
      obtain ⟨rfl, rfl⟩ := h
      exact ⟨.inl rfl, first⟩
    · split at h
      · cases h
      · next t looped =>
        simp only [Except.ok.injEq, Prod.mk.injEq] at h
        obtain ⟨rfl, rfl⟩ := h
        exact ⟨.inl rfl, first.trans (implicitLoop_tl looped)⟩
      · next t looped =>
        obtain ⟨code, same⟩ := askVal_spec h
        exact ⟨code, first.trans ((implicitLoop_tl looped).trans same)⟩
    · obtain ⟨code, same⟩ := askVal_spec h
      exact ⟨code, first.trans same⟩

/-! ## Codes of the transition loops -/

omit [DecidableEq ν] in
theorem nvpLoop_ret {nvps es : List NameValPair} {n : ν} {i : ℕ} {w w' : World ν κ ω} {rc : ℤ}
    {next : Option ν} (h : nvpLoop call nvps n i es w = .ok (.ret rc next w')) :
    (rc = 0 ∧ next.isSome) ∨ rc < 0 ∨ rc = mountError := by
  induction es generalizing w with
  | nil => cases h
  | cons e es ih =>
    rw [nvpLoop] at h
    split at h
    · cases h
    · split at h
      · exact ih h
      · split at h
        · cases h
        · split at h
          · next code _ _ failed =>
            simp only [Except.ok.injEq, Flow.ret.injEq] at h
            exact .inr (.inr (h.1.symm.trans failed))
          · split at h
            · split at h
              · simp only [Except.ok.injEq, Flow.ret.injEq] at h
                exact .inl ⟨h.1.symm, by rw [← h.2.1]; rfl⟩
              · simp only [Except.ok.injEq, Flow.ret.injEq] at h
                exact .inr (.inl (by rw [← h.1]; decide))
            · exact ih h

omit [DecidableEq ν] in
theorem selectLoop_ret {nvps : List NameValPair} {n : ν} {slots i : ℕ} {w w' : World ν κ ω}
    {rc : ℤ} {next : Option ν} (h : selectLoop call nvps n slots i w = .ok (.ret rc next w')) :
    (rc = 0 ∧ next.isSome) ∨ rc < 0 ∨ rc = mountError := by
  induction slots generalizing i w with
  | zero => cases h
  | succ slots ih =>
    rw [selectLoop] at h
    split at h
    · cases h
    · split at h
      · cases h
      · split at h
        · cases h
        · next looped =>
          simp only [Except.ok.injEq, Selected.ret.injEq] at h
          obtain ⟨rfl, rfl, -⟩ := h
          exact nvpLoop_ret looped
        · exact ih h

omit [DecidableEq ν] in
/-- A transition that is selected by value is one of the node's. -/
theorem selectLoop_matched {nvps : List NameValPair} {n : ν} {slots i j : ℕ}
    {w w' : World ν κ ω} (h : selectLoop call nvps n slots i w = .ok (.matched j w')) :
    (w'.nodes n).tl ≠ [] := by
  induction slots generalizing i w with
  | zero => cases h
  | succ slots ih =>
    rw [selectLoop] at h
    split at h
    · cases h
    · next tn found =>
      split at h
      · simp only [Except.ok.injEq, Selected.matched.injEq] at h
        obtain ⟨-, rfl⟩ := h
        rintro empty
        rw [transition, empty] at found
        cases found
      · split at h
        · cases h
        · cases h
        · exact ih h

omit [DecidableEq ν] in
theorem defaultLoop_ret {s s' : EvalState ν κ ω} {n : ν} {slots i : ℕ} {rc : ℤ}
    {next : Option ν} (h : defaultLoop call s n slots i = .ok (some (rc, next, s'))) :
    (rc = 0 ∧ next.isSome) ∨ rc < 0 ∨ rc = mountError := by
  have failed : ∀ {t : EvalState ν κ ω}, (some (-einval, none, t) :
      Option (ℤ × Option ν × EvalState ν κ ω)) = some (rc, next, s') → rc < 0 := by
    intro t e
    simp only [Option.some.injEq, Prod.mk.injEq] at e
    rw [← e.1]
    decide
  induction slots generalizing i with
  | zero => cases h
  | succ slots ih =>
    rw [defaultLoop] at h
    split at h
    · cases h
    · split at h
      · exact ih h
      · split at h
        · cases h
        · simp only at h
          split_ifs at h with wrong again five code
          · exact .inr (.inl (failed (Except.ok.inj h)))
          · simp only [Except.ok.injEq, Option.some.injEq, Prod.mk.injEq] at h
            exact .inl ⟨h.1.symm, by rw [← h.2.1]; rfl⟩
          · exact .inr (.inl (failed (Except.ok.inj h)))
          · simp only [Except.ok.injEq, Option.some.injEq, Prod.mk.injEq] at h
            rw [← h.1]
            exact .inr code.symm
          · split at h
            · simp only [Except.ok.injEq, Option.some.injEq, Prod.mk.injEq] at h
              exact .inl ⟨h.1.symm, by rw [← h.2.1]; rfl⟩
            · exact .inr (.inl (failed (Except.ok.inj h)))

/-- The three ways in which a transition ends: by a value match, by another selection or an error,
or at the end of the graph. -/
theorem doTransition_cases {n : ν} {s s' : EvalState ν κ ω} {rc : ℤ} {next : Option ν}
    (h : doTransition call n s = .ok (rc, next, s')) :
    (∃ i w, selectLoop call s.nvps n maxNumTransitions 0 s.world = .ok (.matched i w) ∧
      followMatch call s.nvps n i w = .ok (rc, next, s'.world)) ∨
    ((∀ i w, selectLoop call s.nvps n maxNumTransitions 0 s.world ≠ .ok (.matched i w)) ∧
      ((rc = 0 ∧ next.isSome) ∨ rc < 0 ∨ rc = mountError ∨
        rc = nullTok ∧ (s'.node n).tl = [])) := by
  unfold doTransition at h
  simp only at h
  split at h
  · cases h
  · next i w matched =>
    left
    split at h
    · cases h
    · next followed =>
      simp only [Except.ok.injEq, Prod.mk.injEq] at h
      obtain ⟨rfl, rfl, rfl⟩ := h
      exact ⟨i, w, matched, followed⟩
  · next selected =>
    simp only [Except.ok.injEq, Prod.mk.injEq] at h
    obtain ⟨rfl, rfl, rfl⟩ := h
    refine .inr ⟨fun i w e => (by rw [e] at selected; cases selected), ?_⟩
    exact (selectLoop_ret selected).imp_right (Or.imp_right .inl)
  · next w passed =>
    refine .inr ⟨fun i w e => (by rw [e] at passed; cases passed), ?_⟩
    split at h
    · cases h
    · next looped =>
      simp only [Except.ok.injEq] at h
      subst h
      exact (defaultLoop_ret looped).imp_right (Or.imp_right .inl)
    · simp only [Except.ok.injEq, Prod.mk.injEq] at h
      obtain ⟨rfl, rfl, rfl⟩ := h
      by_cases empty : (w.nodes n).tl = []
      · simp [EvalState.node, empty]
      · simp [EvalState.node, empty]

/-! ## Success and the end of the graph -/

/-- A value match that is selected in this state has a function that returns zero, `MOUNT_ERROR` or a
negative code, and has a next node. -/
def MatchOk (call : Callbacks ν κ ω) (n : ν) (s : EvalState ν κ ω) : Prop :=
  ∀ i w, selectLoop call s.nvps n maxNumTransitions 0 s.world = .ok (.matched i w) →
    ∀ rc w', transFunc call 0 ((transition w n i).bind TransitionNode.transFunc) n s.nvps w =
      .ok (rc, w') → (rc ≤ 0 ∨ rc = mountError) ∧ (nextToken w' n i).isSome

/-- A turn at node `n` that cannot be mistaken for a success: the user does not fail three times to
give a value for a node with transitions, and a value match is followed or is an error. -/
structure StepOk (call : Callbacks ν κ ω) (n : ν) (s : EvalState ν κ ω) : Prop where
  answered : ∀ s', allocAndGetVal n s = .ok (einval, s') → (s.node n).tl = []
  matched : ∀ s', allocAndGetVal n s = .ok (0, s') → MatchOk call n s'

/-- The callbacks of a node leave the number of its transitions alone. -/
def KeepsTransitions (call : Callbacks ν κ ω) : Prop :=
  ∀ f n nvps w rc w', call f n nvps w = .ok (rc, w') →
    (w'.nodes n).tl.length = (w.nodes n).tl.length

theorem evalResult_eq_zero {rc : ℤ} : evalResult rc = 0 ↔ rc = 0 ∨ (0 < rc ∧ rc ≠ mountError) := by
  unfold evalResult
  split_ifs with h
  · simp [h]
  · simp [h]

omit [DecidableEq ν] in
/-- Following a value match. -/
theorem followMatch_cases {nvps : List NameValPair} {n : ν} {i : ℕ} {w w' : World ν κ ω} {rc : ℤ}
    {next : Option ν} (h : followMatch call nvps n i w = .ok (rc, next, w')) :
    ∃ code, transFunc call 0 ((transition w n i).bind TransitionNode.transFunc) n nvps w =
        .ok (code, w') ∧ next = nextToken w' n i ∧ rc = if next.isSome then code else einval := by
  unfold followMatch at h
  split at h
  · cases h
  · next code v called =>
    split at h
    · next m token =>
      simp only [Except.ok.injEq, Prod.mk.injEq] at h
      obtain ⟨rfl, rfl, rfl⟩ := h
      exact ⟨code, called, token.symm, rfl⟩
    · next token =>
      simp only [Except.ok.injEq, Prod.mk.injEq] at h
      obtain ⟨rfl, rfl, rfl⟩ := h
      exact ⟨code, called, token.symm, rfl⟩

/-- How a turn returns: from the search for a value, or from the transition. -/
theorem evalStep_done {n last : ν} {s s' : EvalState ν κ ω} {rc : ℤ}
    (h : evalStep call (.at n s) = some (.done rc last s')) : last = n ∧ rc ≠ 0 ∧
      (allocAndGetVal n s = .ok (rc, s') ∨ ∃ t next, allocAndGetVal n s = .ok (0, t) ∧
        doTransition call n t = .ok (rc, next, s')) := by
  rw [evalStep] at h
  split at h
  · cases h
  · next code t allocated =>
    split_ifs at h with failed
    · simp only [Option.some.injEq, Config.done.injEq] at h
      obtain ⟨rfl, rfl, rfl⟩ := h
      exact ⟨rfl, failed, .inl allocated⟩
    · obtain rfl := not_not.mp failed
      split at h
      · cases h
      · next transitioned =>
        split_ifs at h with failed'
        · simp only [Option.some.injEq, Config.done.injEq] at h
          obtain ⟨rfl, rfl, rfl⟩ := h
          exact ⟨rfl, failed', .inr ⟨t, _, allocated, transitioned⟩⟩
        · split at h <;> cases h

/-- How a turn goes on. -/
theorem evalStep_at {n m : ν} {s s' : EvalState ν κ ω}
    (h : evalStep call (.at n s) = some (.at m s')) : ∃ t, allocAndGetVal n s = .ok (0, t) ∧
      doTransition call n t = .ok (0, some m, s') := by
  rw [evalStep] at h
  split at h
  · cases h
  · next code t allocated =>
    split_ifs at h with failed
    · cases h
    · obtain rfl := not_not.mp failed
      split at h
      · cases h
      · next transitioned =>
        split_ifs at h with failed'
        · cases h
        · obtain rfl := not_not.mp failed'
          split at h
          · simp only [Option.some.injEq, Config.at.injEq] at h
            obtain ⟨rfl, rfl⟩ := h
            exact ⟨t, allocated, transitioned⟩
          · cases h

/-- A turn that goes on is not mistaken for anything. -/
theorem stepOk_of_at {n m : ν} {s s' : EvalState ν κ ω}
    (h : evalStep call (.at n s) = some (.at m s')) : StepOk call n s := by
  obtain ⟨t, allocated, transitioned⟩ := evalStep_at h
  constructor
  · intro u gaveUp
    rw [allocated] at gaveUp
    exact absurd (Prod.mk.inj (Except.ok.inj gaveUp)).1 (by decide)
  · intro u allocated' i w selected rc w' called
    obtain rfl := (Prod.mk.inj (Except.ok.inj (allocated.symm.trans allocated'))).2
    rcases doTransition_cases transitioned with ⟨j, v, selected', followed⟩ | ⟨other, -⟩
    · obtain ⟨rfl, rfl⟩ := Selected.matched.inj (Except.ok.inj (selected.symm.trans selected'))
      obtain ⟨code, called', next, zero⟩ := followMatch_cases followed
      obtain ⟨rfl, rfl⟩ := Prod.mk.inj (Except.ok.inj (called.symm.trans called'))
      rw [Option.isSome_some, if_pos rfl] at zero
      exact ⟨.inl zero.ge, by rw [← next]; rfl⟩
    · exact absurd selected (other i w)

/-- A turn that is not mistaken for a success only succeeds at the end of the graph. -/
theorem terminal_of_stepOk {n last : ν} {s s' : EvalState ν κ ω} {rc : ℤ}
    (h : evalStep call (.at n s) = some (.done rc last s')) (ok : StepOk call n s)
    (zero : evalResult rc = 0) : (s'.node last).tl = [] := by
  obtain ⟨rfl, failed, allocated | ⟨t, next, allocated, transitioned⟩⟩ := evalStep_done h
  · obtain ⟨code, same⟩ := allocAndGetVal_spec allocated
    rw [evalResult_eq_zero] at zero
    rcases zero with zero | ⟨positive, noError⟩
    · exact absurd zero failed
    · rcases code with code | code | code | rfl
      · exact absurd code failed
      · omega
      · exact absurd code noError
      · rw [same last]
        exact ok.answered s' allocated
  · rw [evalResult_eq_zero] at zero
    rcases zero with zero | ⟨positive, noError⟩
    · exact absurd zero failed
    · rcases doTransition_cases transitioned with ⟨i, w, selected, followed⟩ | ⟨-, code⟩
      · obtain ⟨code, called, token, rcEq⟩ := followMatch_cases followed
        obtain ⟨codeOk, some_⟩ := ok.matched t allocated i w selected code _ called
        rw [token, if_pos some_] at rcEq
        subst rcEq
        rcases codeOk with codeOk | codeOk
        · omega
        · exact absurd codeOk noError
      · rcases code with ⟨code, -⟩ | code | code | ⟨-, empty⟩
        · exact absurd code failed
        · omega
        · exact absurd code noError
        · exact empty

omit [DecidableEq ν] in
theorem transFunc_length (keeps : KeepsTransitions call) {code rc : ℤ} {f : Option κ} {n : ν}
    {nvps : List NameValPair} {w w' : World ν κ ω}
    (h : transFunc call code f n nvps w = .ok (rc, w')) :
    (w'.nodes n).tl.length = (w.nodes n).tl.length := by
  cases f with
  | none =>
    simp only [transFunc, Except.ok.injEq, Prod.mk.injEq] at h
    rw [h.2]
  | some f => exact keeps _ _ _ _ _ _ h

/-- A turn that only succeeds at the end of the graph is not mistaken for a success. -/
theorem stepOk_of_terminal (keeps : KeepsTransitions call) {n last : ν} {s s' : EvalState ν κ ω}
    {rc : ℤ} (h : evalStep call (.at n s) = some (.done rc last s'))
    (terminal : evalResult rc = 0 → (s'.node last).tl = []) : StepOk call n s := by
  obtain ⟨rfl, failed, allocated | ⟨t, next, allocated, transitioned⟩⟩ := evalStep_done h
  · constructor
    · intro u gaveUp
      obtain ⟨rfl, rfl⟩ := Prod.mk.inj (Except.ok.inj (allocated.symm.trans gaveUp))
      rw [← (allocAndGetVal_spec allocated).2 last]
      exact terminal (by decide)
    · intro u allocated'
      exact absurd (Prod.mk.inj (Except.ok.inj (allocated.symm.trans allocated'))).1 failed
  · constructor
    · intro u gaveUp
      exact absurd (Prod.mk.inj (Except.ok.inj (allocated.symm.trans gaveUp))).1 (by decide)
    · intro u allocated' i w selected code w' called
      obtain rfl := (Prod.mk.inj (Except.ok.inj (allocated.symm.trans allocated'))).2
      rcases doTransition_cases transitioned with ⟨j, v, selected', followed⟩ | ⟨other, -⟩
      · obtain ⟨rfl, rfl⟩ := Selected.matched.inj (Except.ok.inj (selected.symm.trans selected'))
        obtain ⟨code', called', token, rcEq⟩ := followMatch_cases followed
        obtain ⟨rfl, rfl⟩ := Prod.mk.inj (Except.ok.inj (called.symm.trans called'))
        have some_ : (s'.node last).tl ≠ [] := by
          have length := transFunc_length keeps called
          have matched := List.length_pos_iff.mpr (selectLoop_matched selected)
          exact List.ne_nil_of_length_pos (by rw [EvalState.node, length]; exact matched)
        have error : ¬ (0 < rc ∧ rc ≠ mountError) := fun positive =>
          some_ (terminal (evalResult_eq_zero.mpr (.inr positive)))
        rw [← token]
        cases next with
        | none =>
          rw [Option.isSome_none, if_neg Bool.false_ne_true] at rcEq
          exact absurd ⟨by rw [rcEq]; decide, by rw [rcEq]; decide⟩ error
        | some m =>
          rw [Option.isSome_some, if_pos rfl] at rcEq
          subst rcEq
          exact ⟨by omega, rfl⟩
      · exact absurd selected (other i w)

open StateTransition in
/-- A run from `c` that returns: if no turn can be mistaken for a success, then success means the
end of the graph; and conversely. -/
theorem halted_run {c : Config ν κ ω} {rc : ℤ} {last : ν} {s : EvalState ν κ ω}
    (run : Reaches (evalStep call) c (.done rc last s)) (here : ∃ n t, c = .at n t) :
    ((∀ n t, Reaches (evalStep call) c (.at n t) → StepOk call n t) →
      evalResult rc = 0 → (s.node last).tl = []) ∧
    (KeepsTransitions call → (evalResult rc = 0 → (s.node last).tl = []) →
      ∀ n t, Reaches (evalStep call) c (.at n t) → StepOk call n t) := by
  induction run using Relation.ReflTransGen.head_induction_on with
  | refl =>
    obtain ⟨n, t, e⟩ := here
    cases e
  | head first rest ih =>
    next c c' =>
    obtain ⟨n, t, rfl⟩ := here
    have step : evalStep call (.at n t) = some c' := first
    -- what is reached from here is this turn itself or reached from the next one
    have visited : ∀ m u, Reaches (evalStep call) (.at n t) (.at m u) →
        (m = n ∧ u = t) ∨ Reaches (evalStep call) c' (.at m u) := by
      intro m u reached
      rcases Relation.ReflTransGen.cases_head reached with same | ⟨d, stepped, later⟩
      · obtain ⟨rfl, rfl⟩ := Config.at.inj same
        exact .inl ⟨rfl, rfl⟩
      · obtain rfl := Option.mem_unique first stepped
        exact .inr later
    cases c' with
    | «at» m u =>
      obtain ⟨forward, backward⟩ := ih ⟨m, u, rfl⟩
      constructor
      · intro ok
        exact forward fun k v later => ok k v (.head first later)
      · intro keeps terminal k v reached
        rcases visited k v reached with ⟨rfl, rfl⟩ | later
        · exact stepOk_of_at step
        · exact backward keeps terminal k v later
    | done rc' last' s'' =>
      have final : rc' = rc ∧ last' = last ∧ s'' = s := by
        rcases Relation.ReflTransGen.cases_head rest with same | ⟨d, stepped, -⟩
        · exact Config.done.inj same
        · cases stepped
      obtain ⟨rfl, rfl, rfl⟩ := final
      constructor
      · intro ok
        exact terminal_of_stepOk step (ok n t .refl)
      · intro keeps terminal k v reached
        rcases visited k v reached with ⟨rfl, rfl⟩ | later
        · exact stepOk_of_terminal keeps step terminal
        · rcases Relation.ReflTransGen.cases_head later with same | ⟨d, stepped, -⟩
          · cases same
          · cases stepped
    | stopped why =>
      rcases Relation.ReflTransGen.cases_head rest with same | ⟨d, stepped, -⟩
      · cases same
      · cases stepped

open StateTransition in
/-- **When success means the end of the graph.**  An evaluation that returns has reached the end of
the graph whenever it reports success, if no turn of it gives up on the user at a node with
transitions, and no value match has a positive code other than `MOUNT_ERROR` or lacks a next node;
and only then, for callbacks that leave the number of transitions alone. -/
theorem eval_zero_terminal_iff (call : Callbacks ν κ ω) (root : ν) (s₀ : EvalState ν κ ω) {rc : ℤ}
    {last : ν} {s : EvalState ν κ ω}
    (run : Reaches (evalStep call) (evalStart root s₀) (.done rc last s)) :
    ((∀ n t, Reaches (evalStep call) (evalStart root s₀) (.at n t) → StepOk call n t) →
      evalResult rc = 0 → (s.node last).tl = []) ∧
    (KeepsTransitions call → (evalResult rc = 0 → (s.node last).tl = []) →
      ∀ n t, Reaches (evalStep call) (evalStart root s₀) (.at n t) → StepOk call n t) := by
  refine halted_run run ?_
  unfold evalStart at run ⊢
  split at run
  · rcases Relation.ReflTransGen.cases_head run with same | ⟨d, stepped, -⟩
    · cases same
    · cases stepped
  · exact ⟨_, _, rfl⟩

/-- The transitions of the passphrase node of the passphrase key module, in front of a terminal
node. -/
def passwdNodes : Bool → ParamNode Bool Unit
  | false =>
    { mntOptNames := ["passphrase_passwd", "passwd"]
      flags := { maskOutput := true, nonemptyValueRequired := true }
      tl := [⟨some "passphrase_salt", some true, some ()⟩, ⟨some "default", some true, some ()⟩] }
  | true => { mntOptNames := ["end"], flags := { noValue := true } }

/-- `tf_passwd` on these nodes. -/
def passwdCall : Callbacks Bool Unit Unit := fun _ n _ w =>
  match (w.nodes n).val with
  | none => .ok (-einval, w)
  | some v => .ok (defaultTok, (w.push (some v)).modify n fun node => { node with val := none })

/-- An evaluation of these nodes with the given passphrase. -/
def passwdState (passwd : CStr) : EvalState Bool Unit Unit where
  world := ⟨passwdNodes, [], ()⟩
  nvps := [⟨"verbosity", some (lit "0"), false⟩, ⟨"passphrase_passwd", some passwd, false⟩]
  verbosity := 1
  hasGetString := false
  inputs := []

theorem keepsTransitions_passwdCall : KeepsTransitions passwdCall := by
  intro f n nvps w rc w' called
  unfold passwdCall at called
  split at called
  · obtain ⟨-, rfl⟩ := Prod.mk.inj (Except.ok.inj called)
    rfl
  · obtain ⟨-, rfl⟩ := Prod.mk.inj (Except.ok.inj called)
    simp [World.modify, World.setNode, World.push]

open StateTransition in
/-- With an ordinary passphrase the evaluation ends at the terminal node. -/
theorem eval_secret :
    (∃ s, Reaches (evalStep passwdCall) (evalStart false (passwdState "secret"))
      (.done nullTok true s)) ∧
    ∀ n t, Reaches (evalStep passwdCall) (evalStart false (passwdState "secret")) (.at n t) →
      StepOk passwdCall n t := by
  have run : ∃ s, Reaches (evalStep passwdCall) (evalStart false (passwdState "secret"))
      (.done nullTok true s) ∧ (s.node true).tl = [] :=
    ⟨_, .head rfl (.head rfl .refl), rfl⟩
  obtain ⟨s, reached, terminal⟩ := run
  exact ⟨⟨s, reached⟩, (eval_zero_terminal_iff passwdCall false _ reached).2
    keepsTransitions_passwdCall fun _ => terminal⟩

open StateTransition in
/-- The passphrase `passphrase_salt` is the value of a transition: the code of `tf_passwd` ends the
evaluation, which is reported as a success. -/
theorem eval_zero_in_the_middle : ∃ rc last s,
    Reaches (evalStep passwdCall) (evalStart false (passwdState "passphrase_salt"))
      (.done rc last s) ∧ evalResult rc = 0 ∧ (s.node last).tl ≠ [] :=
  ⟨_, _, _, .head rfl .refl, rfl, List.cons_ne_nil _ _⟩

end Ecryptfs
