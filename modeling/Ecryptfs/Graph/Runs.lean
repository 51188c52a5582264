import Ecryptfs.Graph.Quiet

/-!
# Runs without questions

The turns of a quiet evaluation as steps between worlds and lists: the other parts of the state do
not matter.  `Goes` is one turn in which one callback is called, and `Runs` a sequence of turns.
-/

namespace Ecryptfs

open StateTransition

variable {ν κ ω : Type} [DecidableEq ν]

/-- A quiet state with the given world and list. -/
structure Standing (s : EvalState ν κ ω) (w : World ν κ ω) (nvps : List NameValPair) : Prop where
  world : s.world = w
  nvps : s.nvps = nvps
  verbosity : s.verbosity = 0

/-- One turn leads from node `n` to node `m`. -/
def Goes (call : Callbacks ν κ ω) (n : ν) (w : World ν κ ω) (nvps : List NameValPair) (m : ν)
    (w' : World ν κ ω) (nvps' : List NameValPair) : Prop :=
  ∀ s, Standing s w nvps →
    ∃ s', evalStep call (.at n s) = some (.at m s') ∧ Standing s' w' nvps'

/-- Some turns lead from node `n` to node `m`. -/
def Runs (call : Callbacks ν κ ω) (n : ν) (w : World ν κ ω) (nvps : List NameValPair) (m : ν)
    (w' : World ν κ ω) (nvps' : List NameValPair) : Prop :=
  ∀ s, Standing s w nvps →
    ∃ s', Reaches (evalStep call) (.at n s) (.at m s') ∧ Standing s' w' nvps'

variable {call : Callbacks ν κ ω} {n m k : ν} {w w' w'' : World ν κ ω}
  {nvps nvps' nvps'' : List NameValPair}

theorem Runs.refl : Runs call n w nvps n w nvps := fun s here => ⟨s, .refl, here⟩

theorem Goes.runs (goes : Goes call n w nvps m w' nvps') : Runs call n w nvps m w' nvps' := by
  intro s here
  obtain ⟨s', stepped, there⟩ := goes s here
  exact ⟨s', .single stepped, there⟩

theorem Runs.trans (first : Runs call n w nvps m w' nvps')
    (second : Runs call m w' nvps' k w'' nvps'') : Runs call n w nvps k w'' nvps'' := by
  intro s here
  obtain ⟨t, reached, there⟩ := first s here
  obtain ⟨u, reached', there'⟩ := second t there
  exact ⟨u, reached.trans reached', there'⟩

theorem Goes.trans (first : Goes call n w nvps m w' nvps')
    (second : Runs call m w' nvps' k w'' nvps'') : Runs call n w nvps k w'' nvps'' :=
  first.runs.trans second

/-- The node gets its value: it had one, or it takes one from the list or its default. -/
inductive Gets (n : ν) (w : World ν κ ω) (nvps : List NameValPair) :
    World ν κ ω → List NameValPair → Prop
  | given (given : (w.nodes n).val.isSome) : Gets n w nvps w nvps
  | retrieved (open_ : (w.nodes n).val = none)
      (explicit : (w.nodes n).flags.allowImplicitTransition = false)
      (stdin : (w.nodes n).flags.stdinRequired = false) :
      Gets n w nvps (w.setNode n (retrieveVal (w.nodes n) nvps).2.1)
        (retrieveVal (w.nodes n) nvps).2.2

/-- Everything `alloc_and_get_val` does comes down to a world and a list. -/
def Allocs (n : ν) (w : World ν κ ω) (nvps : List NameValPair) (w' : World ν κ ω)
    (nvps' : List NameValPair) : Prop :=
  ∀ s, Standing s w nvps → ∃ t, allocAndGetVal n s = .ok (0, t) ∧ Standing t w' nvps'

theorem Gets.allocs (gets : Gets n w nvps w' nvps') : Allocs n w nvps w' nvps' := by
  rintro s ⟨rfl, rfl, verbosity⟩
  cases gets with
  | given given => exact ⟨s, allocAndGetVal_given given, rfl, rfl, verbosity⟩
  | retrieved open_ explicit stdin =>
    exact ⟨_, allocAndGetVal_quiet ⟨verbosity, stdin⟩ explicit open_, rfl, rfl, verbosity⟩

theorem World.setNode_self (w : World ν κ ω) (n : ν) : w.setNode n (w.nodes n) = w := by
  unfold World.setNode
  rw [Function.update_eq_self]

/-- A node without an entry in the list and without a default stays as it is. -/
theorem allocs_nothing (open_ : (w.nodes n).val = none)
    (explicit : (w.nodes n).flags.allowImplicitTransition = false)
    (stdin : (w.nodes n).flags.stdinRequired = false)
    (absent : ∀ name ∈ (w.nodes n).mntOptNames, ¬ Pending name nvps)
    (noDefault : (w.nodes n).defaultVal = none ∨ (w.nodes n).defaultVal = some (lit "NULL")) :
    Allocs n w nvps w nvps := by
  have allocs := (@Gets.retrieved _ _ _ _ n w nvps open_ explicit stdin).allocs
  rwa [retrieveVal_nothing absent noDefault, World.setNode_self] at allocs

theorem goes_of_transition {v : World ν κ ω} (allocs : Allocs n w nvps v nvps')
    (transitions : ∀ t, Standing t v nvps' → ∃ s', doTransition call n t = .ok (0, some m, s') ∧
      Standing s' w' nvps') : Goes call n w nvps m w' nvps' := by
  intro s here
  obtain ⟨t, allocated, there⟩ := allocs s here
  obtain ⟨s', transitioned, there'⟩ := transitions t there
  refine ⟨s', ?_, there'⟩
  rw [evalStep, allocated]
  simp only [ne_eq, not_true_eq_false, if_false, transitioned]

/-- **A turn by default.**  No transition has the value of the node or the name of a list entry; the
function of the first default transition is called. -/
theorem goes_default {v : World ν κ ω} {j : ℕ} {tn : TransitionNode ν κ} {code : ℤ}
    (allocs : Allocs n w nvps v nvps')
    (unnamed : ∀ u ∈ (v.nodes n).tl, Unnamed nvps' u ∧ u.val ≠ (v.nodes n).val)
    (isDefault : tn.val = some (lit "default"))
    (earlier : ∀ i < j, ∀ u, transition v n i = some u → u.val ≠ some (lit "default"))
    (low : j < maxNumTransitions) (noRetry : code ≠ wrongValue)
    (followed : Followed call n nvps' m v w' j tn nullTok code) : Goes call n w nvps m w' nvps' := by
  refine goes_of_transition allocs fun t here => ?_
  obtain ⟨rfl, rfl, verbosity⟩ := here
  refine ⟨{ t with
    world := w'
    repeated := if t.lastnode = some n then t.repeated else 0
    lastnode := some n }, ?_, rfl, rfl, ?_⟩
  · have selected : selectLoop call t.nvps n maxNumTransitions 0 t.world = .ok (.passed t.world) :=
      selectLoop_unnamed unnamed
    have looped : defaultLoop call { t with
          repeated := if t.lastnode = some n then t.repeated else 0
          lastnode := some n } n maxNumTransitions 0 = _ :=
      defaultLoop_follow isDefault earlier (Nat.zero_le j) (by omega) noRetry followed
    unfold doTransition
    simp only [selected, looped]
  · exact verbosity

/-- **A turn by value.**  The function of the first transition with the value of the node is called,
and returns zero. -/
theorem goes_matched {v : World ν κ ω} {j : ℕ} {tn : TransitionNode ν κ}
    (allocs : Allocs n w nvps v nvps') (labelled : tn.val.isSome)
    (same : tn.val = (v.nodes n).val) (earlier : ∀ i < j, ∀ u, transition v n i = some u →
      Unnamed nvps' u ∧ u.val ≠ (v.nodes n).val) (low : j < maxNumTransitions)
    (followed : Followed call n nvps' m v w' j tn 0 0) : Goes call n w nvps m w' nvps' := by
  refine goes_of_transition allocs fun t here => ?_
  obtain ⟨rfl, rfl, verbosity⟩ := here
  refine ⟨{ t with
    world := w'
    repeated := if t.lastnode = some n then t.repeated else 0
    lastnode := some n }, ?_, rfl, rfl, ?_⟩
  · have selected : selectLoop call t.nvps n maxNumTransitions 0 t.world = .ok (.matched j t.world) :=
      selectLoop_found followed.taken labelled same earlier (Nat.zero_le j) (by omega)
    unfold doTransition followMatch
    simp only [selected, followed.taken, Option.bind_some, followed.called, followed.next]
  · exact verbosity

end Ecryptfs
