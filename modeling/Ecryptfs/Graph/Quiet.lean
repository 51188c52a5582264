import Ecryptfs.Graph.EngineProof

/-!
# Evaluation without questions

With verbosity 0 and no node that insists on the terminal, an evaluation never asks: a node takes its
value from the list of name/value pairs or from its default, and a wrong value ends the evaluation.
What such an evaluation does depends only on the world and the list.  `doTransition_to` is the
invariant rule for the callbacks of one turn; `evalStep_default` and `evalStep_matched` compute the
turns in which exactly one callback is called.
-/

namespace Ecryptfs

variable {ν κ ω : Type}

/-! ## The list of name/value pairs -/

/-- The number of entries that were not processed. -/
def unprocessed (nvps : List NameValPair) : ℕ := nvps.countP fun e => e.processed = false

/-- There is an entry of the given name, processed or not. -/
def Named (name : CStr) (nvps : List NameValPair) : Prop := name ∈ nvps.map NameValPair.name

/-- There is an entry of the given name that was not processed. -/
def Pending (name : CStr) (nvps : List NameValPair) : Prop :=
  ∃ e ∈ nvps, e.name = name ∧ e.processed = false

theorem takeEntry_eq_none {name : CStr} {nvps : List NameValPair} :
    takeEntry name nvps = none ↔ ¬ Pending name nvps := by
  induction nvps with
  | nil => simp [takeEntry, Pending]
  | cons e es ih =>
    rw [takeEntry]
    split_ifs with first
    · simp only [false_iff, not_not]
      exact ⟨e, List.mem_cons_self, first⟩
    · rw [Option.map_eq_none_iff, ih, Pending, Pending, List.exists_mem_cons_iff, not_or]
      exact (and_iff_right first).symm

theorem takeEntry_unprocessed {name : CStr} {nvps nvps' : List NameValPair} {value : Option CStr}
    (h : takeEntry name nvps = some (value, nvps')) :
    ∀ e ∈ nvps', e.processed = false → e ∈ nvps := by
  induction nvps generalizing nvps' with
  | nil => cases h
  | cons e es ih =>
    rw [takeEntry] at h
    split_ifs at h with first
    · obtain ⟨-, rfl⟩ := Prod.mk.inj (Option.some.inj h)
      intro e' among fresh
      rcases List.mem_cons.mp among with rfl | among
      · cases fresh
      · exact List.mem_cons_of_mem _ among
    · obtain ⟨⟨value', es'⟩, taken, same⟩ := Option.map_eq_some_iff.mp h
      obtain ⟨rfl, rfl⟩ := Prod.mk.inj same
      intro e' among fresh
      rcases List.mem_cons.mp among with rfl | among
      · exact List.mem_cons_self
      · exact List.mem_cons_of_mem _ (ih taken e' among fresh)

/-- Taking an entry keeps the names and leaves one entry less to process. -/
theorem takeEntry_spec {name : CStr} {nvps nvps' : List NameValPair} {value : Option CStr}
    (h : takeEntry name nvps = some (value, nvps')) :
    nvps'.map NameValPair.name = nvps.map NameValPair.name ∧
      unprocessed nvps' + 1 = unprocessed nvps := by
  induction nvps generalizing nvps' with
  | nil => cases h
  | cons e es ih =>
    rw [takeEntry] at h
    split_ifs at h with first
    · obtain ⟨-, rfl⟩ := Prod.mk.inj (Option.some.inj h)
      refine ⟨rfl, ?_⟩
      simp [unprocessed, first.2]
    · obtain ⟨⟨value', es'⟩, taken, same⟩ := Option.map_eq_some_iff.mp h
      obtain ⟨rfl, rfl⟩ := Prod.mk.inj same
      obtain ⟨names, count⟩ := ih taken
      refine ⟨by rw [List.map_cons, List.map_cons, names], ?_⟩
      unfold unprocessed at count ⊢
      rw [List.countP_cons, List.countP_cons, ← count]
      omega

/-- How `retrieve_val` ends: with an entry of the list, with the default, or with nothing. -/
inductive Retrieved (node : ParamNode ν κ) (nvps : List NameValPair) :
    Bool × ParamNode ν κ × List NameValPair → Prop
  | entry {name : CStr} {value : Option CStr} {nvps' : List NameValPair}
      (named : name ∈ node.mntOptNames) (taken : takeEntry name nvps = some (value, nvps')) :
      Retrieved node nvps (true, node.receive value, nvps')
  | default {d : CStr} (isDefault : node.defaultVal = some d)
      (absent : ∀ name ∈ node.mntOptNames, ¬ Pending name nvps) :
      Retrieved node nvps (true, { node with val := some d }, nvps)
  | nothing (absent : ∀ name ∈ node.mntOptNames, ¬ Pending name nvps) :
      Retrieved node nvps (false, node, nvps)

theorem retrieveVal_spec (node : ParamNode ν κ) (nvps : List NameValPair) :
    Retrieved node nvps (retrieveVal node nvps) := by
  unfold retrieveVal
  split
  · next value nvps' found =>
    obtain ⟨name, named, taken⟩ := List.exists_of_findSome?_eq_some found
    exact .entry (List.mem_reverse.mp named) taken
  · next found =>
    have absent : ∀ name ∈ node.mntOptNames, ¬ Pending name nvps := by
      intro name named
      rw [← takeEntry_eq_none]
      exact List.findSome?_eq_none_iff.mp found name (List.mem_reverse.mpr named)
    split
    · next d isDefault =>
      split_ifs
      · exact .default isDefault absent
      · exact .nothing absent
    · exact .nothing absent

theorem findSome?_takeEntry {options : List CStr} {nvps : List NameValPair}
    (absent : ∀ name ∈ options, ¬ Pending name nvps) :
    (options.reverse.findSome? fun name => takeEntry name nvps) = none := by
  rw [List.findSome?_eq_none_iff]
  intro name named
  rw [takeEntry_eq_none]
  exact absent name (List.mem_reverse.mp named)

/-- Nothing is retrieved for a node without an entry in the list and without a default. -/
theorem retrieveVal_nothing {node : ParamNode ν κ} {nvps : List NameValPair}
    (absent : ∀ name ∈ node.mntOptNames, ¬ Pending name nvps)
    (noDefault : node.defaultVal = none ∨ node.defaultVal = some (lit "NULL")) :
    retrieveVal node nvps = (false, node, nvps) := by
  unfold retrieveVal
  rw [findSome?_takeEntry absent]
  rcases noDefault with none_ | null
  · rw [none_]
  · rw [null]
    exact if_neg (not_not.mpr rfl)

/-! ## Values -/

/-- The state has verbosity 0 and node `n` does not insist on the terminal. -/
structure Quiet (n : ν) (s : EvalState ν κ ω) : Prop where
  verbosity : s.verbosity = 0
  stdin : (s.node n).flags.stdinRequired = false

variable [DecidableEq ν]

theorem askVal_quiet {n : ν} {s : EvalState ν κ ω} (quiet : Quiet n s) :
    askVal n s = .ok (0, s) := by
  unfold askVal
  simp [quiet.verbosity, quiet.stdin]

omit [DecidableEq ν] in
/-- Only the value and the flag `PARAMETER_SET` of a node change when it is given a value. -/
theorem Retrieved.fields {node : ParamNode ν κ} {nvps : List NameValPair}
    {result : Bool × ParamNode ν κ × List NameValPair} (h : Retrieved node nvps result) :
    ∃ v set, result.2.1 =
      { node with val := v, flags := { node.flags with parameterSet := set } } := by
  cases h with
  | entry =>
    unfold ParamNode.receive
    dsimp only
    split
    · exact ⟨_, _, rfl⟩
    · exact ⟨_, _, rfl⟩
  | default => exact ⟨_, _, rfl⟩
  | nothing => exact ⟨_, _, rfl⟩

/-- The state after a node has received what `retrieve_val` found for it. -/
def retrieve (n : ν) (s : EvalState ν κ ω) : EvalState ν κ ω :=
  { s.setNode n (retrieveVal (s.node n) s.nvps).2.1 with
    nvps := (retrieveVal (s.node n) s.nvps).2.2 }

theorem node_retrieve (n k : ν) (s : EvalState ν κ ω) : (retrieve n s).node k =
    if k = n then (retrieveVal (s.node n) s.nvps).2.1 else s.node k :=
  node_setNode s n k _

theorem Quiet.retrieve {n : ν} {s : EvalState ν κ ω} (quiet : Quiet n s) :
    Quiet n (retrieve n s) := by
  refine ⟨quiet.verbosity, ?_⟩
  obtain ⟨v, set, fields⟩ := (retrieveVal_spec (s.node n) s.nvps).fields
  rw [node_retrieve, if_pos rfl, fields]
  exact quiet.stdin

theorem names_retrieve (n : ν) (s : EvalState ν κ ω) :
    (retrieve n s).nvps.map NameValPair.name = s.nvps.map NameValPair.name := by
  change (retrieveVal (s.node n) s.nvps).2.2.map NameValPair.name = _
  have spec := retrieveVal_spec (s.node n) s.nvps
  generalize retrieveVal (s.node n) s.nvps = result at spec ⊢
  cases spec with
  | entry named taken => exact (takeEntry_spec taken).1
  | default => rfl
  | nothing => rfl

theorem unprocessed_of_retrieve {n : ν} {s : EvalState ν κ ω} {e : NameValPair}
    (among : e ∈ (retrieve n s).nvps) (fresh : e.processed = false) : e ∈ s.nvps := by
  change e ∈ (retrieveVal (s.node n) s.nvps).2.2 at among
  have spec := retrieveVal_spec (s.node n) s.nvps
  generalize retrieveVal (s.node n) s.nvps = result at spec among
  cases spec with
  | entry named taken => exact takeEntry_unprocessed taken e among fresh
  | default => exact among
  | nothing => exact among

/-- Either an entry of the list is processed for a node, or there is none for it. -/
theorem retrieve_cases (n : ν) (s : EvalState ν κ ω) :
    unprocessed (retrieve n s).nvps + 1 = unprocessed s.nvps ∨
      ((∀ name ∈ (s.node n).mntOptNames, ¬ Pending name s.nvps) ∧
        (retrieve n s).nvps = s.nvps ∧
        ((s.node n).defaultVal = none → (retrieve n s).node n = s.node n)) := by
  rw [node_retrieve, if_pos rfl]
  change unprocessed (retrieveVal (s.node n) s.nvps).2.2 + 1 = _ ∨
    (_ ∧ (retrieveVal (s.node n) s.nvps).2.2 = _ ∧ _)
  have spec := retrieveVal_spec (s.node n) s.nvps
  generalize retrieveVal (s.node n) s.nvps = result at spec ⊢
  cases spec with
  | entry named taken => exact .inl (takeEntry_spec taken).2
  | default isDefault absent =>
    refine .inr ⟨absent, rfl, fun noDefault => ?_⟩
    rw [noDefault] at isDefault
    cases isDefault
  | nothing absent => exact .inr ⟨absent, rfl, fun _ => rfl⟩

theorem allocAndGetVal_given {n : ν} {s : EvalState ν κ ω} (given : (s.node n).val.isSome) :
    allocAndGetVal n s = .ok (0, s) := by
  rw [allocAndGetVal, if_pos given]

/-- A node without implicit transitions gets what is retrieved for it, or nothing. -/
theorem allocAndGetVal_quiet {n : ν} {s : EvalState ν κ ω} (quiet : Quiet n s)
    (explicit : (s.node n).flags.allowImplicitTransition = false) (open_ : (s.node n).val = none) :
    allocAndGetVal n s = .ok (0, retrieve n s) := by
  have calm := quiet.retrieve
  obtain ⟨v, set, fields⟩ := (retrieveVal_spec (s.node n) s.nvps).fields
  unfold retrieve at calm ⊢
  rw [allocAndGetVal, open_, Option.isSome_none, if_neg Bool.false_ne_true]
  rcases found : retrieveVal (s.node n) s.nvps with ⟨retrieved, node, nvps⟩
  rw [found] at fields calm
  have explicit' : node.flags.allowImplicitTransition = false :=
    (congrArg (fun node => node.flags.allowImplicitTransition) fields).trans explicit
  simp only [explicit', Bool.false_eq_true, false_and, not_false_eq_true, and_true, if_false]
  split_ifs
  · rfl
  · exact askVal_quiet calm

theorem implicitLoop_kept {P : EvalState ν κ ω → Prop} {n : ν} {retrieved found : Bool}
    {tl : List (TransitionNode ν κ)} {s t : EvalState ν κ ω} (start : P s)
    (others : ∀ u m, P u → (∃ tn ∈ tl, tn.nextToken = some m) → P (retrieve m u))
    (label : ∀ u v, P u → P (u.setNode n { u.node n with val := some v }))
    (h : implicitLoop n retrieved tl s = .ok (found, t)) : P t := by
  induction tl generalizing retrieved s with
  | nil =>
    obtain ⟨-, rfl⟩ := Prod.mk.inj (Except.ok.inj h)
    exact start
  | cons tn tl ih =>
    have others' : ∀ u m, P u → (∃ tn ∈ tl, tn.nextToken = some m) → P (retrieve m u) := by
      rintro u m inP ⟨tn', among, leads⟩
      exact others u m inP ⟨tn', List.mem_cons_of_mem _ among, leads⟩
    rw [implicitLoop] at h
    split at h
    · split_ifs at h
      exact ih start others' h
    · next m leads =>
      have next_ := others s m start ⟨tn, List.mem_cons_self, leads⟩
      unfold retrieve at next_
      split at h
      · next node nvps found_ =>
        rw [found_] at next_
        obtain ⟨-, rfl⟩ := Prod.mk.inj (Except.ok.inj h)
        exact label _ _ next_
      · next node nvps none_ =>
        rw [none_] at next_
        exact ih next_ others' h

/-- What is kept when values are retrieved holds when `alloc_and_get_val` has a value, or when it comes to
ask the user. -/
theorem allocAndGetVal_asks {P : EvalState ν κ ω → Prop} {n : ν} {s t : EvalState ν κ ω} {rc : ℤ}
    (start : P s) (own : (s.node n).val = none → P (retrieve n s))
    (others : (s.node n).flags.allowImplicitTransition = true → ∀ u m, P u →
      (∃ tn ∈ (s.node n).tl, tn.nextToken = some m) → P (retrieve m u))
    (label : (s.node n).flags.allowImplicitTransition = true → ∀ u v, P u →
      P (u.setNode n { u.node n with val := some v }))
    (h : allocAndGetVal n s = .ok (rc, t)) :
    (rc = 0 ∧ P t) ∨ ∃ u, P u ∧ askVal n u = .ok (rc, t) := by
  have given : ∀ u, P u → (Except.ok (0, u) : Except Stop (ℤ × EvalState ν κ ω)) = .ok (rc, t) →
      (rc = 0 ∧ P t) ∨ ∃ u, P u ∧ askVal n u = .ok (rc, t) := by
    intro u inP h
    obtain ⟨rfl, rfl⟩ := Prod.mk.inj (Except.ok.inj h)
    exact .inl ⟨rfl, inP⟩
  rw [allocAndGetVal] at h
  split_ifs at h with isSome
  · exact given s start h
  · have inP := own (Option.not_isSome_iff_eq_none.mp isSome)
    obtain ⟨v, set, fields⟩ := (retrieveVal_spec (s.node n) s.nvps).fields
    unfold retrieve at inP
    split at h
    next retrieved node nvps found =>
    rw [found] at fields inP
    have tl := congrArg ParamNode.tl fields
    simp only at h
    split_ifs at h with done implicit
    · exact given _ inP h
    · have implicit' : (s.node n).flags.allowImplicitTransition = true :=
        (congrArg (fun node => node.flags.allowImplicitTransition) fields).symm.trans implicit.1
      have others' := others implicit'
      simp only at tl
      rw [← tl] at others'
      split at h
      · cases h
      · next looped => exact given _ (implicitLoop_kept inP others' (label implicit') looped) h
      · next looped => exact .inr ⟨_, implicitLoop_kept inP others' (label implicit') looped, h⟩
    · exact .inr ⟨_, inP, h⟩

/-- **The invariant rule for values.**  A quiet evaluation always gets on with `alloc_and_get_val`;
what holds before and is kept when values are retrieved holds after it. -/
theorem allocAndGetVal_kept {P : EvalState ν κ ω → Prop} {n : ν} {s t : EvalState ν κ ω} {rc : ℤ}
    (quiet : ∀ u, P u → Quiet n u) (start : P s) (own : (s.node n).val = none → P (retrieve n s))
    (others : (s.node n).flags.allowImplicitTransition = true → ∀ u m, P u →
      (∃ tn ∈ (s.node n).tl, tn.nextToken = some m) → P (retrieve m u))
    (label : (s.node n).flags.allowImplicitTransition = true → ∀ u v, P u →
      P (u.setNode n { u.node n with val := some v }))
    (h : allocAndGetVal n s = .ok (rc, t)) : rc = 0 ∧ P t := by
  rcases allocAndGetVal_asks start own others label h with given | ⟨u, inP, asked⟩
  · exact given
  · rw [askVal_quiet (quiet u inP)] at asked
    obtain ⟨rfl, rfl⟩ := Prod.mk.inj (Except.ok.inj asked)
    exact ⟨rfl, inP⟩

/-! ## One turn, from behind

A turn may call several callbacks before it goes to the next node: those of the transitions named by
list entries, and that of the transition that is taken. -/

section

variable {call : Callbacks ν κ ω} {P : World ν κ ω → Prop}

/-- A callback of one of the transitions of node `n` is called. -/
def Called (call : Callbacks ν κ ω) (n : ν) (nvps : List NameValPair) (w w' : World ν κ ω) : Prop :=
  ∃ tn ∈ (w.nodes n).tl, ∃ f, tn.transFunc = some f ∧ ∃ code, call f n nvps w = .ok (code, w')

/-- How a turn came to the node `m`: by transition number `i`, whose function was called in the world
`w`, did not fail, and left `w'` behind. -/
structure Followed (call : Callbacks ν κ ω) (n : ν) (nvps : List NameValPair) (m : ν)
    (w w' : World ν κ ω) (i : ℕ) (tn : TransitionNode ν κ) (start code : ℤ) : Prop where
  taken : transition w n i = some tn
  called : transFunc call start tn.transFunc n nvps w = .ok (code, w')
  success : 0 ≤ code ∧ code ≠ mountError
  next : nextToken w' n i = some m

omit [DecidableEq ν] in
theorem transFunc_called {n : ν} {nvps : List NameValPair} {w w' : World ν κ ω} {i : ℕ}
    {tn : TransitionNode ν κ} {start code : ℤ} (taken : transition w n i = some tn)
    (called : transFunc call start tn.transFunc n nvps w = .ok (code, w')) :
    w' = w ∨ Called call n nvps w w' := by
  cases f : tn.transFunc with
  | none =>
    rw [f, transFunc] at called
    exact .inl (Prod.mk.inj (Except.ok.inj called)).2.symm
  | some f' =>
    rw [f, transFunc] at called
    exact .inr ⟨tn, List.mem_of_getElem? taken, f', f, code, called⟩

omit [DecidableEq ν] in
theorem transFunc_kept {n : ν} {nvps : List NameValPair}
    (kept : ∀ w w', P w → Called call n nvps w w' → P w') {w w' : World ν κ ω} {i : ℕ}
    {tn : TransitionNode ν κ} {start code : ℤ} (inP : P w) (taken : transition w n i = some tn)
    (called : transFunc call start tn.transFunc n nvps w = .ok (code, w')) : P w' := by
  rcases transFunc_called taken called with rfl | once
  · exact inP
  · exact kept w w' inP once

omit [DecidableEq ν] in
theorem nvpLoop_kept {n : ν} {nvps es : List NameValPair}
    (kept : ∀ w w', P w → Called call n nvps w w' → P w') {i : ℕ} {w : World ν κ ω} (inP : P w) :
    (∀ w', nvpLoop call nvps n i es w = .ok (.go w') → P w') ∧
    (∀ m w', nvpLoop call nvps n i es w = .ok (.ret 0 (some m) w') →
      ∃ v tn start code, P v ∧ Followed call n nvps m v w' i tn start code) := by
  induction es generalizing w with
  | nil =>
    refine ⟨fun w' h => ?_, fun m w' h => ?_⟩
    · obtain rfl := Flow.go.inj (Except.ok.inj h)
      exact inP
    · cases h
  | cons e es ih =>
    rw [nvpLoop]
    split
    · refine ⟨fun w' h => ?_, fun m w' h => ?_⟩
      · obtain rfl := Flow.go.inj (Except.ok.inj h)
        exact inP
      · cases h
    · next tn taken =>
      split
      · exact ih inP
      · split
        · exact ⟨fun w' h => (by cases h), fun m w' h => (by cases h)⟩
        · next code v called =>
          have inP' := transFunc_kept kept inP taken called
          split
          · next failed =>
            refine ⟨fun w' h => (by cases h), fun m w' h => ?_⟩
            obtain ⟨zero, -, -⟩ := Flow.ret.inj (Except.ok.inj h)
            exact absurd (failed.symm.trans zero) (by decide)
          · split
            · next noError success =>
              refine ⟨fun w' h => (by split at h <;> cases h), fun m w' h => ?_⟩
              split at h
              · next next_ =>
                obtain ⟨-, same, rfl⟩ := Flow.ret.inj (Except.ok.inj h)
                refine ⟨w, tn, nullTok, code, inP, taken, called, ⟨?_, noError⟩, next_.trans same⟩
                rcases success with rfl | rfl
                · decide
                · decide
              · obtain ⟨zero, -, -⟩ := Flow.ret.inj (Except.ok.inj h)
                exact absurd zero (by decide)
            · exact ih inP'

omit [DecidableEq ν] in
theorem selectLoop_kept {n : ν} {nvps : List NameValPair}
    (kept : ∀ w w', P w → Called call n nvps w w' → P w') {slots i : ℕ} {w : World ν κ ω}
    (inP : P w) :
    (∀ w', selectLoop call nvps n slots i w = .ok (.passed w') → P w') ∧
    (∀ j w', selectLoop call nvps n slots i w = .ok (.matched j w') → P w') ∧
    (∀ m w', selectLoop call nvps n slots i w = .ok (.ret 0 (some m) w') →
      ∃ v j tn start code, P v ∧ Followed call n nvps m v w' j tn start code) := by
  have stay : ∀ w', (Except.ok (.passed w) : Except Stop (Selected ν κ ω)) = .ok (.passed w') →
      P w' := by
    intro w' h
    obtain rfl := Selected.passed.inj (Except.ok.inj h)
    exact inP
  induction slots generalizing i w with
  | zero => exact ⟨stay, fun j w' h => (by cases h), fun m w' h => (by cases h)⟩
  | succ slots ih =>
    rw [selectLoop]
    split
    · exact ⟨stay, fun j w' h => (by cases h), fun m w' h => (by cases h)⟩
    · split
      · refine ⟨fun w' h => (by cases h), fun j w' h => ?_, fun m w' h => (by cases h)⟩
        obtain ⟨-, rfl⟩ := Selected.matched.inj (Except.ok.inj h)
        exact inP
      · split
        · exact ⟨fun w' h => (by cases h), fun j w' h => (by cases h), fun m w' h => (by cases h)⟩
        · next looped =>
          refine ⟨fun w' h => (by cases h), fun j w' h => (by cases h), fun m w' h => ?_⟩
          obtain ⟨rfl, rfl, rfl⟩ := Selected.ret.inj (Except.ok.inj h)
          obtain ⟨v, tn, start, code, inP', followed⟩ := (nvpLoop_kept kept inP).2 m _ looped
          exact ⟨v, i, tn, start, code, inP', followed⟩
        · next v looped =>
          have inP' := (nvpLoop_kept kept inP).1 v looped
          refine ih inP' fun w' h => ?_
          obtain rfl := Selected.passed.inj (Except.ok.inj h)
          exact inP'

omit [DecidableEq ν] in
theorem followMatch_kept {n m : ν} {nvps : List NameValPair} {i : ℕ} {w w' : World ν κ ω}
    (h : followMatch call nvps n i w = .ok (0, some m, w')) :
    ∃ tn, Followed call n nvps m w w' i tn 0 0 := by
  unfold followMatch at h
  split at h
  · cases h
  · next rc v called =>
    split at h
    · next next_ =>
      obtain ⟨rfl, same, rfl⟩ := Prod.mk.inj (Except.ok.inj h) |>.imp_right Prod.mk.inj
      cases taken : transition w n i with
      | none =>
        -- without a transition no function is called, and there is no next node either
        rw [taken] at called
        obtain ⟨-, rfl⟩ := Prod.mk.inj (Except.ok.inj called)
        rw [nextToken, taken] at next_
        cases next_
      | some tn =>
        rw [taken] at called
        exact ⟨tn, taken, called, ⟨le_rfl, by decide⟩, next_.trans same⟩
    · obtain ⟨-, same, -⟩ := Prod.mk.inj (Except.ok.inj h) |>.imp_right Prod.mk.inj
      cases same

omit [DecidableEq ν] in
theorem defaultLoop_kept {n m : ν} {slots i : ℕ} {s s' : EvalState ν κ ω}
    (h : defaultLoop call s n slots i = .ok (some (0, some m, s'))) (verbosity : s.verbosity = 0)
    (stdin : ∀ w, w = s.world ∨ Called call n s.nvps s.world w →
      (w.nodes n).flags.stdinRequired = false) :
    (s'.nvps = s.nvps ∧ s'.verbosity = s.verbosity) ∧ ∃ j tn code, code ≠ wrongValue ∧
      Followed call n s.nvps m s.world s'.world j tn nullTok code := by
  induction slots generalizing i with
  | zero => cases h
  | succ slots ih =>
    rw [defaultLoop] at h
    split at h
    · cases h
    · next tn taken =>
      split at h
      · exact ih h
      · split at h
        · cases h
        · next code w called =>
          have calm : ¬ (s.verbosity ≠ 0 ∨ (w.nodes n).flags.stdinRequired = true) := by
            rw [verbosity, stdin w (transFunc_called taken called)]
            simp
          simp only [EvalState.node, if_neg calm] at h
          split_ifs at h with wrong failed
          · simp at h
          · simp at h
          · split at h
            · next next_ =>
              simp only [Except.ok.injEq, Option.some.injEq, Prod.mk.injEq, true_and] at h
              obtain ⟨rfl, rfl⟩ := h
              exact ⟨⟨rfl, rfl⟩, i, tn, code, wrong, taken, called, by omega, next_⟩
            · simp at h

/-- **The invariant rule of a turn.**  Where a quiet evaluation goes from `n` to `m`, one transition of
`n` was followed; a property that the callbacks of `n` preserve holds before and after its function
was called. -/
theorem doTransition_to {n m : ν} {s s' : EvalState ν κ ω} (verbosity : s.verbosity = 0)
    (start : P s.world) (kept : ∀ w w', P w → Called call n s.nvps w w' → P w')
    (stdin : ∀ w, P w → (w.nodes n).flags.stdinRequired = false)
    (h : doTransition call n s = .ok (0, some m, s')) :
    (s'.nvps = s.nvps ∧ s'.verbosity = 0 ∧ P s'.world) ∧
      ∃ w i tn c code, P w ∧ Followed call n s.nvps m w s'.world i tn c code := by
  have conclude : ∀ {w i tn c code}, P w → Followed call n s.nvps m w s'.world i tn c code →
      s'.nvps = s.nvps → s'.verbosity = s.verbosity →
      (s'.nvps = s.nvps ∧ s'.verbosity = 0 ∧ P s'.world) ∧
        ∃ w i tn c code, P w ∧ Followed call n s.nvps m w s'.world i tn c code := by
    intro w i tn c code inP followed nvps verbosity'
    exact ⟨⟨nvps, verbosity'.trans verbosity,
      transFunc_kept kept inP followed.taken followed.called⟩, w, i, tn, c, code, inP, followed⟩
  unfold doTransition at h
  simp only at h
  obtain ⟨passed, matched, returned⟩ :=
    @selectLoop_kept _ _ _ call P n s.nvps kept maxNumTransitions 0 s.world start
  split at h
  · cases h
  · next i w found =>
    split at h
    · cases h
    · next followed =>
      obtain ⟨rfl, rfl, rfl⟩ := Prod.mk.inj (Except.ok.inj h) |>.imp_right Prod.mk.inj
      obtain ⟨tn, followed⟩ := followMatch_kept followed
      exact conclude (matched i w found) followed rfl rfl
  · next found =>
    obtain ⟨rfl, rfl, rfl⟩ := Prod.mk.inj (Except.ok.inj h) |>.imp_right Prod.mk.inj
    obtain ⟨v, i, tn, c, code, inP, followed⟩ := returned m _ found
    exact conclude inP followed rfl rfl
  · next w found =>
    have inP := passed w found
    split at h
    · cases h
    · next looped =>
      obtain rfl := Except.ok.inj h
      obtain ⟨⟨nvps, verbosity'⟩, i, tn, code, -, followed⟩ :=
        defaultLoop_kept looped verbosity (by
          rintro v (rfl | once)
          · exact stdin _ inP
          · exact stdin v (kept _ v inP once))
      exact conclude inP followed nvps verbosity'
    · obtain ⟨-, same, -⟩ := Prod.mk.inj (Except.ok.inj h) |>.imp_right Prod.mk.inj
      cases same

/-! ## One turn, computed -/

/-- A transition with a label that no list entry has as its name. -/
def Unnamed (nvps : List NameValPair) (tn : TransitionNode ν κ) : Prop :=
  ∃ label, tn.val = some label ∧ ¬ Named label nvps

omit [DecidableEq ν] in
theorem nvpLoop_unnamed {n : ν} {i : ℕ} {nvps es : List NameValPair} {w : World ν κ ω}
    {tn : TransitionNode ν κ} (here : transition w n i = some tn) (unnamed : Unnamed es tn) :
    nvpLoop call nvps n i es w = .ok (.go w) := by
  obtain ⟨label, hasLabel, unnamed⟩ := unnamed
  induction es with
  | nil => rfl
  | cons e es ih =>
    rw [Named, List.map_cons, List.mem_cons, not_or] at unnamed
    have other : tn.val.isSome ∧ tn.val ≠ some e.name := by
      rw [hasLabel]
      exact ⟨rfl, fun same => unnamed.1 (Option.some.inj same)⟩
    rw [nvpLoop, here]
    simp only [if_pos other]
    exact ih unnamed.2

omit [DecidableEq ν] in
/-- No transition from number `i` on is selected by the value of the node or by a list entry. -/
theorem selectLoop_unnamed_from {n : ν} {slots i : ℕ} {nvps : List NameValPair} {w : World ν κ ω}
    (unnamed : ∀ k, i ≤ k → ∀ tn, transition w n k = some tn →
      Unnamed nvps tn ∧ tn.val ≠ (w.nodes n).val) :
    selectLoop call nvps n slots i w = .ok (.passed w) := by
  induction slots generalizing i with
  | zero => rfl
  | succ slots ih =>
    rw [selectLoop]
    split
    · rfl
    · next tn here =>
      obtain ⟨free, other⟩ := unnamed i le_rfl tn here
      rw [if_neg fun same => other same.2, nvpLoop_unnamed here free]
      exact ih fun k high => unnamed k (Nat.le_of_succ_le high)

omit [DecidableEq ν] in
/-- No transition is selected by the value of the node or by a list entry. -/
theorem selectLoop_unnamed {n : ν} {slots i : ℕ} {nvps : List NameValPair} {w : World ν κ ω}
    (unnamed : ∀ tn ∈ (w.nodes n).tl, Unnamed nvps tn ∧ tn.val ≠ (w.nodes n).val) :
    selectLoop call nvps n slots i w = .ok (.passed w) :=
  selectLoop_unnamed_from fun _ _ tn here => unnamed tn (List.mem_of_getElem? here)

omit [DecidableEq ν] in
/-- The first loop passes over the transitions that nothing selects. -/
theorem selectLoop_skip {n : ν} {slots i j : ℕ} {nvps : List NameValPair} {w : World ν κ ω}
    {tn : TransitionNode ν κ} (here : transition w n j = some tn)
    (earlier : ∀ k < j, ∀ u, transition w n k = some u → Unnamed nvps u ∧ u.val ≠ (w.nodes n).val)
    (low : i ≤ j) (high : j < i + slots) :
    ∃ slots', selectLoop call nvps n slots i w = selectLoop call nvps n (slots' + 1) j w := by
  induction slots generalizing i with
  | zero => omega
  | succ slots ih =>
    by_cases at_ : i = j
    · rw [at_]
      exact ⟨slots, rfl⟩
    · have bound : j < (w.nodes n).tl.length := (List.getElem?_eq_some_iff.mp here).1
      obtain ⟨u, there⟩ : ∃ u, transition w n i = some u :=
        ⟨_, List.getElem?_eq_getElem (by omega)⟩
      obtain ⟨free, other⟩ := earlier i (by omega) u there
      rw [selectLoop, there]
      simp only [if_neg fun same => other (And.right same), nvpLoop_unnamed there free]
      exact ih (by omega) (by omega)

omit [DecidableEq ν] in
/-- The first transition with the value of the node is found if no list entry names an earlier
one. -/
theorem selectLoop_found {n : ν} {slots i j : ℕ} {nvps : List NameValPair} {w : World ν κ ω}
    {tn : TransitionNode ν κ} (here : transition w n j = some tn) (labelled : tn.val.isSome)
    (same : tn.val = (w.nodes n).val) (earlier : ∀ k < j, ∀ u, transition w n k = some u →
      Unnamed nvps u ∧ u.val ≠ (w.nodes n).val) (low : i ≤ j) (high : j < i + slots) :
    selectLoop call nvps n slots i w = .ok (.matched j w) := by
  obtain ⟨slots', skipped⟩ := @selectLoop_skip _ _ _ call _ _ _ _ _ _ _ here earlier low high
  rw [skipped, selectLoop, here]
  simp only [if_pos (And.intro labelled same)]

omit [DecidableEq ν] in
/-- A list entry with the label of a transition makes the transition be followed if its function
returns one of the two codes for it. -/
theorem nvpLoop_named {n m : ν} {i : ℕ} {nvps es : List NameValPair} {w w' : World ν κ ω}
    {tn : TransitionNode ν κ} {label : CStr} {code : ℤ} (hasLabel : tn.val = some label)
    (named : Named label es) (token : code = defaultTok ∨ code = nullTok)
    (followed : Followed call n nvps m w w' i tn nullTok code) :
    nvpLoop call nvps n i es w = .ok (.ret 0 (some m) w') := by
  induction es with
  | nil => cases named
  | cons e es ih =>
    rw [nvpLoop, followed.taken]
    by_cases here : e.name = label
    · have selected : ¬ (tn.val.isSome ∧ tn.val ≠ some e.name) := by
        rw [hasLabel, here]
        simp
      have noError : code ≠ mountError := by
        rcases token with rfl | rfl <;> decide
      simp only [if_neg selected, followed.called, if_neg noError, if_pos token, followed.next]
    · have skipped : tn.val.isSome ∧ tn.val ≠ some e.name := by
        rw [hasLabel]
        exact ⟨rfl, fun same => here (Option.some.inj same).symm⟩
      rw [Named, List.map_cons, List.mem_cons] at named
      simp only [if_pos skipped]
      exact ih (named.resolve_left (Ne.symm here))

omit [DecidableEq ν] in
/-- If the function returns another code, the loop goes on behind the entry, in the world that the
function leaves behind. -/
theorem nvpLoop_passed {n : ν} {i : ℕ} {nvps es : List NameValPair} {w w' : World ν κ ω}
    {tn tn' : TransitionNode ν κ} {label : CStr} {code : ℤ} (taken : transition w n i = some tn)
    (hasLabel : tn.val = some label) (once : (es.map NameValPair.name).Nodup) (named : Named label es)
    (called : transFunc call nullTok tn.transFunc n nvps w = .ok (code, w'))
    (noToken : code ≠ mountError ∧ code ≠ defaultTok ∧ code ≠ nullTok)
    (taken' : transition w' n i = some tn') (hasLabel' : tn'.val = some label) :
    nvpLoop call nvps n i es w = .ok (.go w') := by
  induction es with
  | nil => cases named
  | cons e es ih =>
    rw [List.map_cons, List.nodup_cons] at once
    rw [nvpLoop, taken]
    by_cases here : e.name = label
    · have selected : ¬ (tn.val.isSome ∧ tn.val ≠ some e.name) := by
        rw [hasLabel, here]
        simp
      have other : ¬ (code = defaultTok ∨ code = nullTok) := fun token =>
        token.elim noToken.2.1 noToken.2.2
      simp only [if_neg selected, called, if_neg noToken.1, if_neg other]
      exact nvpLoop_unnamed taken' ⟨label, hasLabel', here ▸ once.1⟩
    · have skipped : tn.val.isSome ∧ tn.val ≠ some e.name := by
        rw [hasLabel]
        exact ⟨rfl, fun same => here (Option.some.inj same).symm⟩
      rw [Named, List.map_cons, List.mem_cons] at named
      simp only [if_pos skipped]
      exact ih once.2 (named.resolve_left (Ne.symm here))

/-- A turn whose first loop selects nothing follows a default transition, and calls only its
function. -/
theorem doTransition_to_default {n m : ν} {s s' : EvalState ν κ ω} (verbosity : s.verbosity = 0)
    (unnamed : ∀ tn ∈ (s.node n).tl, Unnamed s.nvps tn ∧ tn.val ≠ (s.node n).val)
    (stdin : ∀ w, w = s.world ∨ Called call n s.nvps s.world w →
      (w.nodes n).flags.stdinRequired = false)
    (h : doTransition call n s = .ok (0, some m, s')) :
    (s'.nvps = s.nvps ∧ s'.verbosity = 0) ∧ ∃ i tn code, code ≠ wrongValue ∧
      Followed call n s.nvps m s.world s'.world i tn nullTok code := by
  unfold doTransition at h
  simp only [@selectLoop_unnamed _ _ _ call n _ _ s.nvps s.world unnamed] at h
  split at h
  · cases h
  · next looped =>
    obtain rfl := Except.ok.inj h
    obtain ⟨⟨nvps, verbosity'⟩, followed⟩ := defaultLoop_kept looped verbosity stdin
    exact ⟨⟨nvps, verbosity'.trans verbosity⟩, followed⟩
  · obtain ⟨-, same, -⟩ := Prod.mk.inj (Except.ok.inj h) |>.imp_right Prod.mk.inj
    cases same

/-- A turn at a node with a default transition only, whose function is called once if no list entry
is called `default`. -/
theorem doTransition_to_once {n m : ν} {s s' : EvalState ν κ ω} {tn : TransitionNode ν κ}
    (verbosity : s.verbosity = 0) (only : (s.node n).tl = [tn])
    (isDefault : tn.val = some (lit "default")) (unnamed : ¬ Named (lit "default") s.nvps)
    (stdin : ∀ w, w = s.world ∨ Called call n s.nvps s.world w →
      (w.nodes n).flags.stdinRequired = false)
    (h : doTransition call n s = .ok (0, some m, s')) :
    (s'.nvps = s.nvps ∧ s'.verbosity = 0) ∧ ∃ i c code, code ≠ wrongValue ∧
      Followed call n s.nvps m s.world s'.world i tn c code := by
  by_cases matched : tn.val = (s.node n).val
  · have found : selectLoop call s.nvps n maxNumTransitions 0 s.world = .ok (.matched 0 s.world) :=
      @selectLoop_found _ _ _ call n _ 0 0 s.nvps s.world tn
        (by rw [transition, ← EvalState.node, only]; rfl) (by rw [isDefault]; rfl) matched
        (fun k low => absurd low (Nat.not_lt_zero k)) le_rfl (by decide)
    unfold doTransition at h
    simp only [found] at h
    split at h
    · cases h
    · next followed =>
      obtain ⟨rfl, rfl, rfl⟩ := Prod.mk.inj (Except.ok.inj h) |>.imp_right Prod.mk.inj
      obtain ⟨tn', followed⟩ := followMatch_kept followed
      have same : tn' = tn := by
        have taken := followed.taken
        rw [transition, ← EvalState.node, only] at taken
        exact (Option.some.inj taken).symm
      exact ⟨⟨rfl, verbosity⟩, 0, 0, 0, by decide, same ▸ followed⟩
  · obtain ⟨kept, i, tn', code, right, followed⟩ := doTransition_to_default verbosity (by
      intro u among
      rw [only, List.mem_singleton] at among
      rw [among]
      exact ⟨⟨_, isDefault, unnamed⟩, matched⟩) stdin h
    have same : tn' = tn := by
      have among := List.mem_of_getElem? followed.taken
      rw [← EvalState.node, only] at among
      exact List.mem_singleton.mp among
    exact ⟨kept, i, nullTok, code, right, same ▸ followed⟩

omit [DecidableEq ν] in
/-- The second loop passes over the transitions in front of the first default one. -/
theorem defaultLoop_skip {n : ν} {slots i j : ℕ} {s : EvalState ν κ ω} {tn : TransitionNode ν κ}
    (taken : transition s.world n j = some tn)
    (earlier : ∀ k < j, ∀ u, transition s.world n k = some u → u.val ≠ some (lit "default"))
    (low : i ≤ j) (high : j < i + slots) :
    ∃ slots', defaultLoop call s n slots i = defaultLoop call s n (slots' + 1) j := by
  induction slots generalizing i with
  | zero => omega
  | succ slots ih =>
    by_cases at_ : i = j
    · rw [at_]
      exact ⟨slots, rfl⟩
    · have bound : j < (s.world.nodes n).tl.length := (List.getElem?_eq_some_iff.mp taken).1
      obtain ⟨u, there⟩ : ∃ u, transition s.world n i = some u :=
        ⟨_, List.getElem?_eq_getElem (by omega)⟩
      rw [defaultLoop, there]
      simp only [if_pos (earlier i (by omega) u there)]
      exact ih (by omega) (by omega)

omit [DecidableEq ν] in
theorem defaultLoop_follow {n m : ν} {slots i j : ℕ} {s : EvalState ν κ ω} {w : World ν κ ω}
    {code : ℤ} {tn : TransitionNode ν κ} (isDefault : tn.val = some (lit "default"))
    (earlier : ∀ k < j, ∀ u, transition s.world n k = some u → u.val ≠ some (lit "default"))
    (low : i ≤ j) (high : j < i + slots) (noRetry : code ≠ wrongValue)
    (followed : Followed call n s.nvps m s.world w j tn nullTok code) :
    defaultLoop call s n slots i = .ok (some (0, some m, { s with world := w })) := by
  obtain ⟨slots', skipped⟩ := @defaultLoop_skip _ _ _ call _ _ _ _ _ _ followed.taken earlier low high
  have noError : ¬ (code = mountError ∨ code < 0) := by
    have := followed.success
    omega
  rw [skipped, defaultLoop, followed.taken]
  simp only [isDefault, ne_eq, not_true_eq_false, if_false, followed.called, if_neg noRetry,
    if_neg noError, followed.next]

/-- How a default transition ends an evaluation: its function fails, or there is no next node. -/
inductive Halts (call : Callbacks ν κ ω) (n : ν) (nvps : List NameValPair) (w w' : World ν κ ω) (i : ℕ)
    (tn : TransitionNode ν κ) : ℤ → Prop
  | failed {code : ℤ} (negative : code < 0)
      (called : transFunc call nullTok tn.transFunc n nvps w = .ok (code, w')) :
      Halts call n nvps w w' i tn code
  | lost {code : ℤ} (success : 0 ≤ code ∧ code ≠ mountError ∧ code ≠ wrongValue)
      (called : transFunc call nullTok tn.transFunc n nvps w = .ok (code, w'))
      (noNext : nextToken w' n i = none) : Halts call n nvps w w' i tn (-einval)

omit [DecidableEq ν] in
theorem Halts.nonzero {n : ν} {nvps : List NameValPair} {w w' : World ν κ ω} {i : ℕ}
    {tn : TransitionNode ν κ} {rc : ℤ} (halts : Halts call n nvps w w' i tn rc) : rc ≠ 0 := by
  cases halts with
  | failed negative => exact negative.ne
  | lost => decide

omit [DecidableEq ν] in
theorem defaultLoop_halt {n : ν} {slots i j : ℕ} {s : EvalState ν κ ω} {w : World ν κ ω} {rc : ℤ}
    {tn : TransitionNode ν κ} (taken : transition s.world n j = some tn)
    (isDefault : tn.val = some (lit "default"))
    (earlier : ∀ k < j, ∀ u, transition s.world n k = some u → u.val ≠ some (lit "default"))
    (low : i ≤ j) (high : j < i + slots) (halts : Halts call n s.nvps s.world w j tn rc) :
    defaultLoop call s n slots i = .ok (some (rc, none, { s with world := w })) := by
  obtain ⟨slots', skipped⟩ := @defaultLoop_skip _ _ _ call _ _ _ _ _ _ taken earlier low high
  rw [skipped, defaultLoop, taken]
  cases halts with
  | failed negative called =>
    have noRetry : rc ≠ wrongValue := fun same => by rw [same] at negative; cases negative
    simp only [isDefault, ne_eq, not_true_eq_false, if_false, called, if_neg noRetry,
      if_pos (Or.inr negative)]
  | @lost code success called noNext =>
    have noError : ¬ (code = mountError ∨ code < 0) := by omega
    simp only [isDefault, ne_eq, not_true_eq_false, if_false, called, if_neg success.2.2,
      if_neg noError, noNext]

end

end Ecryptfs
