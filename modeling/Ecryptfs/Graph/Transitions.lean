import Ecryptfs.Graph.Engine

/-!
# The transitions that are selected

One call of `do_transition` is followed through its three loops, with each transition that one of them
selects and the code of its function (`transitionTrace`).  Without the record it is `doTransition`
(`doTransition_trace`).
-/

namespace Ecryptfs

/-- A selected transition: its number, and the code of its function if it has one. -/
structure Taken where
  index : ℕ
  code : Option ℤ
  deriving DecidableEq

variable {ν κ ω : Type}

/-- Transition functions that return. -/
abbrev Returning (ν κ ω : Type) := κ → ν → List NameValPair → World ν κ ω → ℤ × World ν κ ω

/-- The callbacks of the engine that transition functions that return are. -/
def Returning.callbacks (results : Returning ν κ ω) : Callbacks ν κ ω :=
  fun f current nvps w => .ok (results f current nvps w)

/-! ## The record -/

section

variable (results : Returning ν κ ω)

/-- Transition number `i` is selected: its function is called, and `code` is the code if it has none. -/
def take (i : ℕ) (code : ℤ) (f : Option κ) (current : ν) (nvps : List NameValPair) (w : World ν κ ω) :
    Taken × ℤ × World ν κ ω :=
  match f with
  | none => (⟨i, none⟩, code, w)
  | some f => (⟨i, some (results f current nvps w).1⟩, results f current nvps w)

theorem take_index (i : ℕ) (code : ℤ) (f : Option κ) (current : ν) (nvps : List NameValPair)
    (w : World ν κ ω) : (take results i code f current nvps w).1.index = i := by
  cases f with
  | none => rfl
  | some f => rfl

/-- `nvpLoop` with the transitions it selects. -/
def nvpTrace (nvps : List NameValPair) (current : ν) (i : ℕ) :
    List NameValPair → World ν κ ω → List Taken × Flow ν κ ω
  | [], w => ([], .go w)
  | e :: es, w =>
    match transition w current i with
    | none => ([], .go w)
    | some tn =>
      if tn.val.isSome ∧ tn.val ≠ some e.name then nvpTrace nvps current i es w
      else
        match take results i nullTok tn.transFunc current nvps w with
        | (t, code, w) =>
          if code = mountError then ([t], .ret code none w)
          else if code = defaultTok ∨ code = nullTok then
            match nextToken w current i with
            | some next => ([t], .ret 0 (some next) w)
            | none => ([t], .ret (-einval) none w)
          else
            match nvpTrace nvps current i es w with
            | (ts, flow) => (t :: ts, flow)

/-- `selectLoop` with the transitions it selects; one with the value of the node is selected by
`followTrace`. -/
def selectTrace (nvps : List NameValPair) (current : ν) :
    ℕ → ℕ → World ν κ ω → List Taken × Selected ν κ ω
  | 0, _, w => ([], .passed w)
  | slots + 1, i, w =>
    match transition w current i with
    | none => ([], .passed w)
    | some tn =>
      if tn.val.isSome ∧ tn.val = (w.nodes current).val then ([], .matched i w)
      else
        match nvpTrace results nvps current i nvps w with
        | (ts, .ret rc next w) => (ts, .ret rc next w)
        | (ts, .go w) =>
          match selectTrace nvps current slots (i + 1) w with
          | (ts', selected) => (ts ++ ts', selected)

/-- `followMatch` with the transition it selects. -/
def followTrace (nvps : List NameValPair) (current : ν) (i : ℕ) (w : World ν κ ω) :
    List Taken × ℤ × Option ν × World ν κ ω :=
  match take results i 0 ((transition w current i).bind TransitionNode.transFunc) current nvps w with
  | (t, rc, w) =>
    match nextToken w current i with
    | some next => ([t], rc, some next, w)
    | none => ([t], einval, none, w)

/-- `defaultLoop` with the transition it selects. -/
def defaultTrace (s : EvalState ν κ ω) (current : ν) :
    ℕ → ℕ → List Taken × Option (ℤ × Option ν × EvalState ν κ ω)
  | 0, _ => ([], none)
  | slots + 1, i =>
    match transition s.world current i with
    | none => ([], none)
    | some tn =>
      if tn.val ≠ some (lit "default") then defaultTrace s current slots (i + 1)
      else
        match take results i nullTok tn.transFunc current s.nvps s.world with
        | (t, code, w) =>
          let s := { s with world := w }
          if code = wrongValue then
            if s.verbosity ≠ 0 ∨ (s.node current).flags.stdinRequired then
              let s := { s with repeated := s.repeated + 1 }
              if s.repeated ≥ 5 then ([t], some (-einval, none, s))
              else ([t], some (0, some current, s))
            else ([t], some (-einval, none, s))
          else if code = mountError ∨ code < 0 then ([t], some (code, none, s))
          else
            match nextToken w current i with
            | some next => ([t], some (0, some next, s))
            | none => ([t], some (-einval, none, s))

/-- The end of `do_transition`, from what the first loop comes to. -/
def finishTrace (current : ν) (s : EvalState ν κ ω) :
    List Taken × Selected ν κ ω → List Taken × ℤ × Option ν × EvalState ν κ ω
  | (ts, .matched i w) =>
    match followTrace results s.nvps current i w with
    | (ts', rc, next, w) => (ts ++ ts', rc, next, { s with world := w })
  | (ts, .ret rc next w) => (ts, rc, next, { s with world := w })
  | (ts, .passed w) =>
    let s := { s with world := w }
    match defaultTrace results s current maxNumTransitions 0 with
    | (ts', some result) => (ts ++ ts', result)
    | (ts', none) => (ts ++ ts', if (s.node current).tl ≠ [] then mountError else nullTok, none, s)

variable [DecidableEq ν]

/-- The static variables of `do_transition` at its start. -/
def enterNode (current : ν) (s : EvalState ν κ ω) : EvalState ν κ ω :=
  { s with
    repeated := if s.lastnode = some current then s.repeated else 0
    lastnode := some current }

/-- `do_transition` with the transitions it selects. -/
def transitionTrace (current : ν) (s : EvalState ν κ ω) :
    List Taken × ℤ × Option ν × EvalState ν κ ω :=
  finishTrace results current (enterNode current s)
    (selectTrace results s.nvps current maxNumTransitions 0 s.world)

end

/-! ## Without the record -/

section

variable {results : Returning ν κ ω} {nvps : List NameValPair} {current : ν}

theorem transFunc_take (i : ℕ) (code : ℤ) (f : Option κ) (w : World ν κ ω) :
    transFunc results.callbacks code f current nvps w =
      .ok (take results i code f current nvps w).2 := by
  cases f with
  | none => rfl
  | some f => rfl

theorem nvpLoop_trace (i : ℕ) (es : List NameValPair) (w : World ν κ ω) :
    nvpLoop results.callbacks nvps current i es w =
      .ok (nvpTrace results nvps current i es w).2 := by
  induction es generalizing w with
  | nil => rfl
  | cons e es ih =>
    unfold nvpLoop nvpTrace
    rcases transition w current i with _ | tn
    · rfl
    · dsimp only
      by_cases other : tn.val.isSome ∧ tn.val ≠ some e.name
      · rw [if_pos other, if_pos other]
        exact ih w
      · rw [if_neg other, if_neg other, transFunc_take i]
        rcases take results i nullTok tn.transFunc current nvps w with ⟨t, code, w⟩
        dsimp only
        split_ifs
        · rfl
        · rcases nextToken w current i with _ | next
          · rfl
          · rfl
        · exact ih w

theorem selectLoop_trace (slots i : ℕ) (w : World ν κ ω) :
    selectLoop results.callbacks nvps current slots i w =
      .ok (selectTrace results nvps current slots i w).2 := by
  induction slots generalizing i w with
  | zero => rfl
  | succ slots ih =>
    unfold selectLoop selectTrace
    rcases transition w current i with _ | tn
    · rfl
    · dsimp only
      by_cases same : tn.val.isSome ∧ tn.val = (w.nodes current).val
      · rw [if_pos same, if_pos same]
      · rw [if_neg same, if_neg same, nvpLoop_trace]
        obtain ⟨ts, flow⟩ := nvpTrace results nvps current i nvps w
        cases flow with
        | ret rc next w' => rfl
        | go w' => exact ih (i + 1) w'

theorem followMatch_trace (i : ℕ) (w : World ν κ ω) :
    followMatch results.callbacks nvps current i w =
      .ok (followTrace results nvps current i w).2 := by
  unfold followMatch followTrace
  rw [transFunc_take i]
  rcases take results i 0 _ current nvps w with ⟨t, rc, w⟩
  dsimp only
  rcases nextToken w current i with _ | next
  · rfl
  · rfl

theorem defaultLoop_trace (s : EvalState ν κ ω) (slots i : ℕ) :
    defaultLoop results.callbacks s current slots i =
      .ok (defaultTrace results s current slots i).2 := by
  induction slots generalizing i with
  | zero => rfl
  | succ slots ih =>
    unfold defaultLoop defaultTrace
    rcases transition s.world current i with _ | tn
    · rfl
    · dsimp only
      by_cases other : tn.val ≠ some (lit "default")
      · rw [if_pos other, if_pos other]
        exact ih (i + 1)
      · rw [if_neg other, if_neg other, transFunc_take i]
        rcases take results i nullTok tn.transFunc current s.nvps s.world with ⟨t, code, w⟩
        dsimp only
        split_ifs
        · rfl
        · rfl
        · rfl
        · rfl
        · rcases nextToken w current i with _ | next
          · rfl
          · rfl

/-- Without the record, the calls are those of the engine. -/
theorem doTransition_trace [DecidableEq ν] (s : EvalState ν κ ω) :
    doTransition results.callbacks current s = .ok (transitionTrace results current s).2 := by
  unfold doTransition transitionTrace enterNode
  dsimp only
  rw [selectLoop_trace]
  obtain ⟨ts, selected⟩ := selectTrace results s.nvps current maxNumTransitions 0 s.world
  cases selected with
  | matched i w =>
    dsimp only [finishTrace]
    rw [followMatch_trace]
  | ret rc next w => rfl
  | passed w =>
    dsimp only [finishTrace]
    rw [defaultLoop_trace]
    rcases defaultTrace results _ current maxNumTransitions 0 with ⟨ts', _ | result⟩
    · rfl
    · rfl

end

end Ecryptfs
