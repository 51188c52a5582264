import Ecryptfs.Graph.Invariant
import Ecryptfs.Lib.Machine

/-!
# The calls of an evaluation

The engine does not look into the further state of the callbacks (`evalStep_mapExt`).  Callbacks that
write each of their calls down there make the same evaluations, which gives the calls of an evaluation
in their order (`Records`, `reaches_iff_records`).
-/

namespace Ecryptfs

open StateTransition

variable {ν κ ω ω' : Type}

/-! ## The further state -/

section

variable (f : ω → ω')

def World.mapExt (w : World ν κ ω) : World ν κ ω' := ⟨w.nodes, w.stack, f w.ext⟩

def EvalState.mapExt (s : EvalState ν κ ω) : EvalState ν κ ω' :=
  ⟨s.world.mapExt f, s.nvps, s.verbosity, s.hasGetString, s.inputs, s.repeated, s.lastnode⟩

def Flow.mapExt : Flow ν κ ω → Flow ν κ ω'
  | .ret rc next w => .ret rc next (w.mapExt f)
  | .go w => .go (w.mapExt f)

def Selected.mapExt : Selected ν κ ω → Selected ν κ ω'
  | .matched i w => .matched i (w.mapExt f)
  | .ret rc next w => .ret rc next (w.mapExt f)
  | .passed w => .passed (w.mapExt f)

def Config.mapExt : Config ν κ ω → Config ν κ ω'
  | .at n s => .at n (s.mapExt f)
  | .done rc last s => .done rc last (s.mapExt f)
  | .stopped why => .stopped why

/-- The outcome of a part of the engine that returns something and a state. -/
def mapState {α : Type} : Except Stop (α × EvalState ν κ ω) → Except Stop (α × EvalState ν κ ω')
  | .error why => .error why
  | .ok (a, s) => .ok (a, s.mapExt f)

end

section

variable {f : ω → ω'}

@[simp] theorem mapExt_node (s : EvalState ν κ ω) (n : ν) : (s.mapExt f).node n = s.node n := rfl

@[simp] theorem mapExt_nodes (w : World ν κ ω) (n : ν) : (w.mapExt f).nodes n = w.nodes n := rfl

@[simp] theorem mapExt_world (s : EvalState ν κ ω) : (s.mapExt f).world = s.world.mapExt f := rfl

@[simp] theorem mapExt_nvps (s : EvalState ν κ ω) : (s.mapExt f).nvps = s.nvps := rfl

@[simp] theorem mapExt_verbosity (s : EvalState ν κ ω) : (s.mapExt f).verbosity = s.verbosity := rfl

@[simp] theorem mapExt_hasGetString (s : EvalState ν κ ω) :
    (s.mapExt f).hasGetString = s.hasGetString := rfl

@[simp] theorem mapExt_inputs (s : EvalState ν κ ω) : (s.mapExt f).inputs = s.inputs := rfl

@[simp] theorem mapExt_transition (w : World ν κ ω) (n : ν) (i : ℕ) :
    transition (w.mapExt f) n i = transition w n i := rfl

@[simp] theorem mapExt_nextToken (w : World ν κ ω) (n : ν) (i : ℕ) :
    nextToken (w.mapExt f) n i = nextToken w n i := rfl

end

/-! ## Values -/

section

variable {f : ω → ω'} [DecidableEq ν]

theorem implicitLoop_mapExt (n : ν) (retrieved : Bool) (tl : List (TransitionNode ν κ))
    (s : EvalState ν κ ω) :
    implicitLoop n retrieved tl (s.mapExt f) = mapState f (implicitLoop n retrieved tl s) := by
  induction tl generalizing retrieved s with
  | nil => rfl
  | cons tn tl ih =>
    unfold implicitLoop
    rcases tn.nextToken with _ | m
    · cases retrieved with
      | false => exact ih false s
      | true => rfl
    · dsimp only
      rw [mapExt_node, mapExt_nvps]
      obtain ⟨found, node, nvps⟩ := retrieveVal (s.node m) s.nvps
      cases found with
      | false => exact ih false { s.setNode m node with nvps }
      | true => rfl

omit [DecidableEq ν] in
theorem getString_mapExt (s : EvalState ν κ ω) :
    getString (s.mapExt f) = mapState f (getString s) := by
  unfold getString
  rw [mapExt_inputs]
  rcases s.inputs with _ | ⟨_ | text, rest⟩ <;> rfl

theorem getValue_mapExt (n : ν) (s : EvalState ν κ ω) (answers : List (Except {rc : ℤ // rc < 0} CStr)) :
    getValue n (s.mapExt f) answers = mapState f (getValue n s answers) := by
  induction answers with
  | nil => rfl
  | cons answer rest ih =>
    rcases answer with rc | text
    · rfl
    · unfold getValue
      rw [mapExt_node]
      rcases selection (s.node n) text with why | _ | val
      · rfl
      · exact ih
      · rfl

theorem obtainValue_mapExt (n : ν) (tries : ℕ) (s : EvalState ν κ ω) :
    obtainValue n tries (s.mapExt f) = mapState f (obtainValue n tries s) := by
  induction tries generalizing s with
  | zero => rfl
  | succ tries ih =>
    unfold obtainValue
    rw [getString_mapExt]
    rcases getString s with why | ⟨_ | text, s⟩
    · rfl
    · rfl
    · dsimp only [mapState]
      generalize filled : s.setNode n { s.node n with val := some text } = u
      have same : (s.mapExt f).setNode n { (s.mapExt f).node n with val := some text } = u.mapExt f :=
        congrArg (EvalState.mapExt f) filled
      rw [same, mapExt_node]
      by_cases again : text = [] ∧ (u.node n).flags.nonemptyValueRequired = true
      · rw [if_pos again, if_pos again]
        exact ih u
      · rw [if_neg again, if_neg again]
        by_cases verified : (u.node n).flags.verifyValue = true
        · rw [if_pos verified, if_pos verified, getString_mapExt]
          rcases getString u with why | ⟨_ | verify, v⟩
          · rfl
          · rfl
          · dsimp only [mapState]
            by_cases other : verify ≠ text
            · rw [if_pos other, if_pos other]
              exact ih (v.setNode n { v.node n with val := none })
            · rw [if_neg other, if_neg other]
              rfl
        · rw [if_neg verified, if_neg verified]
          rfl

theorem promptVal_mapExt (n : ν) (s : EvalState ν κ ω) :
    promptVal n (s.mapExt f) = mapState f (promptVal n s) := by
  unfold promptVal
  rw [mapExt_hasGetString, mapExt_node, mapExt_inputs]
  dsimp only
  split_ifs
  · rfl
  · split
    · rfl
    · exact getValue_mapExt n s s.inputs
  · exact obtainValue_mapExt n 3 s

theorem askVal_mapExt (n : ν) (s : EvalState ν κ ω) :
    askVal n (s.mapExt f) = mapState f (askVal n s) := by
  unfold askVal
  rw [mapExt_node, mapExt_verbosity]
  dsimp only
  split_ifs
  · rfl
  · rfl
  · rfl
  · exact promptVal_mapExt n s

theorem allocAndGetVal_mapExt (n : ν) (s : EvalState ν κ ω) :
    allocAndGetVal n (s.mapExt f) = mapState f (allocAndGetVal n s) := by
  unfold allocAndGetVal
  rw [mapExt_node, mapExt_nvps]
  split_ifs
  · rfl
  · obtain ⟨retrieved, node, nvps⟩ := retrieveVal (s.node n) s.nvps
    dsimp only
    generalize filled : ({ s.setNode n node with nvps } : EvalState ν κ ω) = u
    have same : ({ (s.mapExt f).setNode n node with nvps } : EvalState ν κ ω') = u.mapExt f :=
      congrArg (EvalState.mapExt f) filled
    rw [same]
    split_ifs
    · rfl
    · rw [implicitLoop_mapExt]
      rcases implicitLoop n retrieved node.tl u with why | ⟨_ | _, v⟩
      · rfl
      · exact askVal_mapExt n v
      · rfl
    · exact askVal_mapExt n u

end

/-! ## Transitions -/

section

variable (f : ω → ω')

/-- The outcome of a callback. -/
def mapWorld : Except Stop (ℤ × World ν κ ω) → Except Stop (ℤ × World ν κ ω')
  | .error why => .error why
  | .ok (code, w) => .ok (code, w.mapExt f)

/-- The same callbacks, one with more further state than the other. -/
def SameCalls (call : Callbacks ν κ ω) (call' : Callbacks ν κ ω') : Prop :=
  ∀ k n nvps w, call' k n nvps (w.mapExt f) = mapWorld f (call k n nvps w)

end

section

variable {f : ω → ω'} {call : Callbacks ν κ ω} {call' : Callbacks ν κ ω'}

theorem transFunc_mapExt (same : SameCalls f call call') (code : ℤ) (g : Option κ) (n : ν)
    (nvps : List NameValPair) (w : World ν κ ω) :
    transFunc call' code g n nvps (w.mapExt f) = mapWorld f (transFunc call code g n nvps w) := by
  cases g with
  | none => rfl
  | some g => exact same g n nvps w

theorem nvpLoop_mapExt (same : SameCalls f call call') (nvps : List NameValPair) (n : ν) (i : ℕ)
    (es : List NameValPair) (w : World ν κ ω) :
    nvpLoop call' nvps n i es (w.mapExt f) = (nvpLoop call nvps n i es w).map (Flow.mapExt f) := by
  induction es generalizing w with
  | nil => rfl
  | cons e es ih =>
    unfold nvpLoop
    rw [mapExt_transition]
    rcases transition w n i with _ | tn
    · rfl
    · dsimp only
      by_cases other : tn.val.isSome ∧ tn.val ≠ some e.name
      · rw [if_pos other, if_pos other]
        exact ih w
      · rw [if_neg other, if_neg other, transFunc_mapExt same]
        rcases transFunc call nullTok tn.transFunc n nvps w with why | ⟨code, v⟩
        · rfl
        · dsimp only [mapWorld]
          rw [mapExt_nextToken]
          split_ifs
          · rfl
          · rcases nextToken v n i with _ | next <;> rfl
          · exact ih v

theorem selectLoop_mapExt (same : SameCalls f call call') (nvps : List NameValPair) (n : ν)
    (slots i : ℕ) (w : World ν κ ω) :
    selectLoop call' nvps n slots i (w.mapExt f) =
      (selectLoop call nvps n slots i w).map (Selected.mapExt f) := by
  induction slots generalizing i w with
  | zero => rfl
  | succ slots ih =>
    unfold selectLoop
    rw [mapExt_transition, mapExt_nodes]
    rcases transition w n i with _ | tn
    · rfl
    · dsimp only
      split_ifs
      · rfl
      · rw [nvpLoop_mapExt same]
        rcases nvpLoop call nvps n i nvps w with why | ⟨rc, next, v⟩ | v
        · rfl
        · rfl
        · exact ih (i + 1) v

theorem followMatch_mapExt (same : SameCalls f call call') (nvps : List NameValPair) (n : ν) (i : ℕ)
    (w : World ν κ ω) :
    followMatch call' nvps n i (w.mapExt f) =
      (followMatch call nvps n i w).map fun (rc, next, w) => (rc, next, w.mapExt f) := by
  unfold followMatch
  rw [mapExt_transition, transFunc_mapExt same]
  rcases transFunc call 0 _ n nvps w with why | ⟨rc, v⟩
  · rfl
  · dsimp only [mapWorld]
    rw [mapExt_nextToken]
    rcases nextToken v n i with _ | next <;> rfl

/-- The outcome of the second loop of `do_transition`. -/
def mapFound (f : ω → ω') : Option (ℤ × Option ν × EvalState ν κ ω) →
    Option (ℤ × Option ν × EvalState ν κ ω') :=
  Option.map fun (rc, next, s) => (rc, next, s.mapExt f)

theorem defaultLoop_mapExt (same : SameCalls f call call') (s : EvalState ν κ ω) (n : ν)
    (slots i : ℕ) :
    defaultLoop call' (s.mapExt f) n slots i = (defaultLoop call s n slots i).map (mapFound f) := by
  induction slots generalizing i with
  | zero => rfl
  | succ slots ih =>
    unfold defaultLoop
    rw [mapExt_world, mapExt_transition, mapExt_nvps, mapExt_verbosity]
    rcases transition s.world n i with _ | tn
    · rfl
    · dsimp only
      by_cases other : tn.val ≠ some (lit "default")
      · rw [if_pos other, if_pos other]
        exact ih (i + 1)
      · rw [if_neg other, if_neg other, transFunc_mapExt same]
        rcases transFunc call nullTok tn.transFunc n s.nvps s.world with why | ⟨code, v⟩
        · rfl
        · dsimp only [mapWorld]
          rw [mapExt_nextToken]
          dsimp only [EvalState.node, EvalState.mapExt, World.mapExt]
          by_cases wrong : code = wrongValue
          · rw [if_pos wrong, if_pos wrong]
            by_cases asked : s.verbosity ≠ 0 ∨ (v.nodes n).flags.stdinRequired = true
            · simp only [asked, if_true]
              by_cases often : s.repeated + 1 ≥ 5
              · simp only [often, if_true]
                rfl
              · simp only [often, if_false]
                rfl
            · simp only [asked, if_false]
              rfl
          · rw [if_neg wrong, if_neg wrong]
            by_cases failed : code = mountError ∨ code < 0
            · rw [if_pos failed, if_pos failed]
              rfl
            · rw [if_neg failed, if_neg failed]
              rcases nextToken v n i with _ | next <;> rfl

variable [DecidableEq ν]

theorem doTransition_mapExt (same : SameCalls f call call') (n : ν) (s : EvalState ν κ ω) :
    doTransition call' n (s.mapExt f) =
      (doTransition call n s).map fun (rc, next, s) => (rc, next, s.mapExt f) := by
  unfold doTransition
  dsimp only
  rw [mapExt_world, mapExt_nvps, selectLoop_mapExt same]
  rcases selectLoop call s.nvps n maxNumTransitions 0 s.world with why | ⟨i, w⟩ | ⟨rc, next, w⟩ | w
  · rfl
  · dsimp only [Except.map, Selected.mapExt]
    rw [followMatch_mapExt same]
    rcases followMatch call s.nvps n i w with why | ⟨rc, next, v⟩ <;> rfl
  · rfl
  · dsimp only [Except.map, Selected.mapExt]
    let u : EvalState ν κ ω := { s with
      world := w
      repeated := if s.lastnode = some n then s.repeated else 0
      lastnode := some n }
    generalize swept : defaultLoop call' _ n maxNumTransitions 0 = ends
    obtain rfl : ends = _ := swept.symm.trans (defaultLoop_mapExt same u n maxNumTransitions 0)
    rcases defaultLoop call u n maxNumTransitions 0 with why | _ | ⟨rc, next, v⟩ <;> rfl

/-- **The engine does not look into the further state.** -/
theorem evalStep_mapExt (same : SameCalls f call call') (c : Config ν κ ω) :
    evalStep call' (c.mapExt f) = (evalStep call c).map (Config.mapExt f) := by
  cases c with
  | «at» n s =>
    unfold evalStep Config.mapExt
    dsimp only
    rw [allocAndGetVal_mapExt]
    rcases allocAndGetVal n s with why | ⟨rc, t⟩
    · rfl
    · dsimp only [mapState]
      by_cases failed : rc ≠ 0
      · rw [if_pos failed, if_pos failed]
        rfl
      · rw [if_neg failed, if_neg failed, doTransition_mapExt same]
        rcases doTransition call n t with why | ⟨rc', next, u⟩
        · rfl
        · dsimp only [Except.map]
          by_cases failed' : rc' ≠ 0
          · rw [if_pos failed', if_pos failed']
            rfl
          · rw [if_neg failed', if_neg failed']
            cases next <;> rfl
  | done rc last s => rfl
  | stopped why => rfl

end

/-! ## Records -/

/-- A call of a transition function at a node: its code, and the stack it left behind. -/
structure Call (ν κ : Type) where
  node : ν
  func : κ
  code : ℤ
  stack : List (Option CStr)

/-- Callbacks that write their calls down. -/
def recorded (call : Callbacks ν κ ω) : Callbacks ν κ (ω × List (Call ν κ)) := fun f n nvps w =>
  match call f n nvps (w.mapExt Prod.fst) with
  | .error why => .error why
  | .ok (code, w') => .ok (code, w'.mapExt fun ext => (ext, w.ext.2 ++ [⟨n, f, code, w'.stack⟩]))

theorem recorded_same (call : Callbacks ν κ ω) : SameCalls Prod.fst (recorded call) call := by
  intro f n nvps w
  unfold recorded
  rcases call f n nvps (w.mapExt Prod.fst) with why | ⟨code, w'⟩ <;> rfl

/-- A call with its record. -/
theorem recorded_ok {call : Callbacks ν κ ω} {f : κ} {n : ν} {nvps : List NameValPair} {code : ℤ}
    {w w' : World ν κ (ω × List (Call ν κ))} (h : recorded call f n nvps w = .ok (code, w')) :
    ∃ v, call f n nvps (w.mapExt Prod.fst) = .ok (code, v) ∧
      w' = v.mapExt fun ext => (ext, w.ext.2 ++ [⟨n, f, code, v.stack⟩]) := by
  unfold recorded at h
  split at h
  · cases h
  · next code' v called =>
    obtain ⟨rfl, rfl⟩ := Prod.mk.inj (Except.ok.inj h)
    exact ⟨v, called, rfl⟩

/-- The calls so far. -/
def World.calls (w : World ν κ (ω × List (Call ν κ))) : List (Call ν κ) := w.ext.2

/-- A configuration with the calls so far. -/
def Config.withCalls (c : Config ν κ ω) (calls : List (Call ν κ)) : Config ν κ (ω × List (Call ν κ)) :=
  c.mapExt fun ext => (ext, calls)

variable [DecidableEq ν]

/-- The evaluation from `c` to `d` makes the given calls. -/
def Records (call : Callbacks ν κ ω) (c : Config ν κ ω) (calls : List (Call ν κ)) (d : Config ν κ ω) :
    Prop :=
  Reaches (evalStep (recorded call)) (c.withCalls []) (d.withCalls calls)

omit [DecidableEq ν] in
theorem withCalls_plain (c : Config ν κ ω) (calls : List (Call ν κ)) :
    (c.withCalls calls).mapExt Prod.fst = c := by
  cases c <;> rfl

omit [DecidableEq ν] in
/-- Every configuration with calls consists of the one without them, and the calls. -/
theorem exists_withCalls (c : Config ν κ (ω × List (Call ν κ))) :
    ∃ calls, c = (c.mapExt Prod.fst).withCalls calls := by
  cases c with
  | «at» n s => exact ⟨s.world.ext.2, rfl⟩
  | done rc last s => exact ⟨s.world.ext.2, rfl⟩
  | stopped why => exact ⟨[], rfl⟩

/-- **Every evaluation has its calls.** -/
theorem reaches_iff_records {call : Callbacks ν κ ω} {c d : Config ν κ ω} :
    Reaches (evalStep call) c d ↔ ∃ calls, Records call c calls d := by
  have steps := evalStep_mapExt (recorded_same call)
  constructor
  · intro reached
    obtain ⟨d', reached', same⟩ : ∃ d', Reaches (evalStep (recorded call)) (c.withCalls []) d' ∧
        d'.mapExt Prod.fst = d := by
      induction reached with
      | refl => exact ⟨c.withCalls [], .refl, withCalls_plain c []⟩
      | tail _ stepped ih =>
        obtain ⟨a, reached', rfl⟩ := ih
        rw [Option.mem_def, steps, Option.map_eq_some_iff] at stepped
        obtain ⟨b, stepped', same⟩ := stepped
        exact ⟨b, reached'.tail stepped', same⟩
    obtain ⟨calls, whole⟩ := exists_withCalls d'
    rw [same] at whole
    rw [whole] at reached'
    exact ⟨calls, reached'⟩
  · rintro ⟨calls, reached⟩
    have plain : ∀ {d'}, Reaches (evalStep (recorded call)) (c.withCalls []) d' →
        Reaches (evalStep call) c (d'.mapExt Prod.fst) := by
      intro d' reached
      induction reached with
      | refl =>
        rw [withCalls_plain]
        exact .refl
      | tail _ stepped ih =>
        refine ih.tail ?_
        rw [Option.mem_def, steps, Option.mem_def.mp stepped]
        rfl
    have reached' := plain reached
    rwa [withCalls_plain] at reached'

end Ecryptfs
