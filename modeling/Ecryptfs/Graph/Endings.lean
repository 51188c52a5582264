import Ecryptfs.Graph.Invariant

/-!
# How a turn ends

An invariant of the callbacks says nothing about the call that ends a turn.  `doTransition_ended` does: it
names the transition whose function was called last, with a property that holds in front of this call.
-/

namespace Ecryptfs

variable {ν κ ω : Type} {call : Callbacks ν κ ω} {Q : World ν κ ω → Prop} {nvps es : List NameValPair} {n : ν}
  {w w' : World ν κ ω} {rc : ℤ} {next : Option ν}

/-- The call that ends a turn at node `n`: the function of the transition `tn`, which is number `i`. -/
structure LastCall (call : Callbacks ν κ ω) (Q : World ν κ ω → Prop) (nvps : List NameValPair) (n : ν)
    (i : ℕ) (tn : TransitionNode ν κ) (start code : ℤ) (w w' : World ν κ ω) : Prop where
  before : Q w
  taken : transition w n i = some tn
  called : transFunc call start tn.transFunc n nvps w = .ok (code, w')

/-- How a turn at node `n` ends: it fails, the node has no transitions, a transition has the value of the
node or a name of the list or is the default, or the node is asked for again. -/
inductive Ended (call : Callbacks ν κ ω) (Q : World ν κ ω → Prop) (nvps : List NameValPair) (n : ν) :
    ℤ → Option ν → World ν κ ω → Prop
  | failed {rc : ℤ} {next : Option ν} {w' : World ν κ ω} (code : rc < 0 ∨ rc = mountError) :
      Ended call Q nvps n rc next w'
  | leaf {w' : World ν κ ω} (inQ : Q w') (leaf : (w'.nodes n).tl = []) : Ended call Q nvps n nullTok none w'
  | byValue {i : ℕ} {tn : TransitionNode ν κ} {code : ℤ} {w w' : World ν κ ω}
      (last : LastCall call Q nvps n i tn 0 code w w') (some_ : tn.val.isSome)
      (same : tn.val = (w.nodes n).val) :
      Ended call Q nvps n (if (nextToken w' n i).isSome then code else einval) (nextToken w' n i) w'
  | named {i : ℕ} {tn : TransitionNode ν κ} {code : ℤ} {w w' : World ν κ ω} {m : ν}
      (last : LastCall call Q nvps n i tn nullTok code w w') (leads : code = defaultTok ∨ code = nullTok)
      (next : nextToken w' n i = some m) : Ended call Q nvps n 0 (some m) w'
  | byDefault {i : ℕ} {tn : TransitionNode ν κ} {code : ℤ} {w w' : World ν κ ω} {m : ν}
      (last : LastCall call Q nvps n i tn nullTok code w w') (default : tn.val = some (lit "default"))
      (next : nextToken w' n i = some m) : Ended call Q nvps n 0 (some m) w'
  | again {i : ℕ} {tn : TransitionNode ν κ} {w w' : World ν κ ω}
      (last : LastCall call Q nvps n i tn nullTok wrongValue w w') : Ended call Q nvps n 0 (some n) w'

/-- A transition without a next node is an error. -/
theorem Ended.lost : Ended call Q nvps n (-einval) next w' := .failed (.inl (by decide))

theorem nvpLoop_ended (kept : ∀ w w', Q w → Called call n nvps w w' → Q w') {i : ℕ} (start : Q w)
    (h : nvpLoop call nvps n i es w = .ok (.ret rc next w')) : Ended call Q nvps n rc next w' := by
  induction es generalizing w with
  | nil => cases h
  | cons e es ih =>
    rw [nvpLoop] at h
    split at h
    · cases h
    · next tn taken =>
      split at h
      · exact ih start h
      · split at h
        · cases h
        · next code v called =>
          split at h
          · next failed =>
            obtain ⟨rfl, -, -⟩ := Flow.ret.inj (Except.ok.inj h)
            exact .failed (.inr failed)
          · split at h
            · next success =>
              split at h
              · next m found =>
                obtain ⟨rfl, rfl, rfl⟩ := Flow.ret.inj (Except.ok.inj h)
                exact .named ⟨start, taken, called⟩ success found
              · obtain ⟨rfl, -, -⟩ := Flow.ret.inj (Except.ok.inj h)
                exact .lost
            · exact ih (transFunc_kept kept start taken called) h

theorem selectLoop_ended [DecidableEq ν] (kept : ∀ w w', Q w → Called call n nvps w w' → Q w') {slots i : ℕ}
    (start : Q w) (h : selectLoop call nvps n slots i w = .ok (.ret rc next w')) :
    Ended call Q nvps n rc next w' := by
  induction slots generalizing i w with
  | zero => cases h
  | succ slots ih =>
    rw [selectLoop] at h
    split at h
    · cases h
    · split at h
      · cases h
      · split at h
        · cases h
        · next looped =>
          obtain ⟨rfl, rfl, rfl⟩ := Selected.ret.inj (Except.ok.inj h)
          exact nvpLoop_ended kept start looped
        · next v looped => exact ih ((nvpLoop_inv kept start).1 v looped) h

theorem defaultLoop_ended [DecidableEq ν] {s t : EvalState ν κ ω} {slots i : ℕ} (start : Q s.world)
    (h : defaultLoop call s n slots i = .ok (some (rc, next, t))) :
    Ended call Q s.nvps n rc next t.world := by
  induction slots generalizing i with
  | zero => cases h
  | succ slots ih =>
    rw [defaultLoop] at h
    split at h
    · cases h
    · next tn taken =>
      split at h
      · exact ih h
      · next default =>
        split at h
        · cases h
        · next code w called =>
          simp only at h
          split_ifs at h with wrong asks often failed
          · obtain ⟨rfl, -⟩ := Prod.mk.inj (Option.some.inj (Except.ok.inj h))
            exact .lost
          · obtain ⟨rfl, rest⟩ := Prod.mk.inj (Option.some.inj (Except.ok.inj h))
            obtain ⟨rfl, rfl⟩ := Prod.mk.inj rest
            exact .again ⟨start, taken, wrong ▸ called⟩
          · obtain ⟨rfl, -⟩ := Prod.mk.inj (Option.some.inj (Except.ok.inj h))
            exact .lost
          · obtain ⟨rfl, -⟩ := Prod.mk.inj (Option.some.inj (Except.ok.inj h))
            exact .failed failed.symm
          · split at h
            · next m found =>
              obtain ⟨rfl, rest⟩ := Prod.mk.inj (Option.some.inj (Except.ok.inj h))
              obtain ⟨rfl, rfl⟩ := Prod.mk.inj rest
              exact .byDefault ⟨start, taken, called⟩ (not_not.mp default) found
            · obtain ⟨rfl, -⟩ := Prod.mk.inj (Option.some.inj (Except.ok.inj h))
              exact .lost

/-- **The rule for the end of a turn.**  What the callbacks of node `n` preserve holds in front of the last
call, whose transition and code tell how the turn ends. -/
theorem doTransition_ended [DecidableEq ν] {s t : EvalState ν κ ω}
    (kept : ∀ w w', Q w → Called call n s.nvps w w' → Q w') (start : Q s.world)
    (h : doTransition call n s = .ok (rc, next, t)) : Ended call Q s.nvps n rc next t.world := by
  unfold doTransition at h
  simp only at h
  obtain ⟨passed, matched, -⟩ :=
    @selectLoop_inv _ _ _ n call Q s.nvps s.world kept maxNumTransitions 0 start
  split at h
  · cases h
  · next i w found =>
    obtain ⟨tn, taken, some_, same⟩ := selectLoop_value found
    split at h
    · cases h
    · next followed =>
      obtain ⟨rfl, rest⟩ := Prod.mk.inj (Except.ok.inj h)
      obtain ⟨rfl, rfl⟩ := Prod.mk.inj rest
      obtain ⟨code, called, rfl, rfl⟩ := followMatch_cases followed
      rw [taken] at called
      exact .byValue ⟨matched i w found, taken, called⟩ some_ same
  · next found =>
    obtain ⟨rfl, rest⟩ := Prod.mk.inj (Except.ok.inj h)
    obtain ⟨rfl, rfl⟩ := Prod.mk.inj rest
    exact selectLoop_ended kept start found
  · next w found =>
    have inQ := passed w found
    split at h
    · cases h
    · next looped =>
      obtain rfl := Except.ok.inj h
      have ended := defaultLoop_ended (Q := Q) (by exact inQ) looped
      exact ended
    · obtain ⟨rfl, rest⟩ := Prod.mk.inj (Except.ok.inj h)
      obtain ⟨rfl, rfl⟩ := Prod.mk.inj rest
      by_cases leaf : (w.nodes n).tl = []
      · exact (if_neg (not_not.mpr leaf)).symm ▸ .leaf inQ leaf
      · exact .failed (.inr (if_pos leaf))

end Ecryptfs
