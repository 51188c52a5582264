import Ecryptfs.Graph.Invariant
import Ecryptfs.Graph.Runs

/-!
# The list as a family of queues

To a quiet evaluation the list of name/value pairs is a queue of values for each option name, from
which `retrieve_val` takes the first one, together with the names in the list, which stay.  `Walks`
and `Ends` are the runs of an evaluation in these terms.
-/

namespace Ecryptfs

open StateTransition

/-- The values of the entries of a name that were not processed, in their order. -/
def queue (name : CStr) (nvps : List NameValPair) : List (Option CStr) :=
  (nvps.filter fun e => e.name = name ∧ e.processed = false).map NameValPair.value

theorem queue_eq_nil {name : CStr} {nvps : List NameValPair} :
    queue name nvps = [] ↔ ¬ Pending name nvps := by
  unfold queue Pending
  rw [List.map_eq_nil_iff, List.filter_eq_nil_iff]
  simp

theorem queue_cons (name : CStr) (e : NameValPair) (es : List NameValPair) :
    queue name (e :: es) =
      if e.name = name ∧ e.processed = false then e.value :: queue name es else queue name es := by
  unfold queue
  rw [List.filter_cons]
  simp only [decide_eq_true_eq]
  split_ifs
  · rfl
  · rfl

theorem queue_append (x : CStr) (xs ys : List NameValPair) :
    queue x (xs ++ ys) = queue x xs ++ queue x ys := by
  unfold queue
  rw [List.filter_append, List.map_append]

/-- The first value of a queue is taken from the list; the other queues stay. -/
theorem takeEntry_queue {name : CStr} {nvps : List NameValPair} {value : Option CStr}
    {rest : List (Option CStr)} (first : queue name nvps = value :: rest) :
    ∃ nvps', takeEntry name nvps = some (value, nvps') ∧
      ∀ x, queue x nvps' = if x = name then rest else queue x nvps := by
  induction nvps with
  | nil => cases first
  | cons e es ih =>
    rw [queue_cons] at first
    by_cases here : e.name = name ∧ e.processed = false
    · rw [if_pos here] at first
      obtain ⟨rfl, rfl⟩ := List.cons.inj first
      refine ⟨{ e with processed := true } :: es, by rw [takeEntry, if_pos here], fun x => ?_⟩
      rw [queue_cons, queue_cons, if_neg fun h => by simp at h]
      split_ifs with same new
      · rw [same]
      · exact absurd (new.1.symm.trans here.1) same
      · rfl
    · rw [if_neg here] at first
      obtain ⟨es', taken, queues⟩ := ih first
      refine ⟨e :: es', by rw [takeEntry, if_neg here, taken]; rfl, fun x => ?_⟩
      rw [queue_cons, queue_cons, queues]
      split_ifs with mine same
      · exact absurd ⟨mine.1.trans same, mine.2⟩ here
      · rfl
      · rfl
      · rfl

/-- Only the queue of the name is changed when an entry is taken. -/
theorem queue_takeEntry {name x : CStr} {nvps nvps' : List NameValPair} {value : Option CStr}
    (taken : takeEntry name nvps = some (value, nvps')) (other : x ≠ name) :
    queue x nvps' = queue x nvps := by
  cases first : queue name nvps with
  | nil =>
    rw [takeEntry_eq_none.mpr (queue_eq_nil.mp first)] at taken
    cases taken
  | cons value' rest =>
    obtain ⟨nvps'', taken', queues⟩ := takeEntry_queue first
    obtain ⟨-, rfl⟩ := Prod.mk.inj (Option.some.inj (taken.symm.trans taken'))
    rw [queues, if_neg other]

/-- The list has the given names, and a queue of values for each of them. -/
structure Offers (names : List CStr) (q : CStr → List (Option CStr)) (nvps : List NameValPair) :
    Prop where
  names : nvps.map NameValPair.name = names
  queues : ∀ name, queue name nvps = q name

theorem Offers.absent {names : List CStr} {q : CStr → List (Option CStr)} {nvps : List NameValPair}
    (offers : Offers names q nvps) {name : CStr} (empty : q name = []) : ¬ Pending name nvps := by
  rw [← queue_eq_nil, offers.queues, empty]

theorem Offers.named {names : List CStr} {q : CStr → List (Option CStr)} {nvps : List NameValPair}
    (offers : Offers names q nvps) {name : CStr} : Named name nvps ↔ name ∈ names := by
  rw [Named, offers.names]

theorem Offers.take {names : List CStr} {q : CStr → List (Option CStr)} {nvps : List NameValPair}
    (offers : Offers names q nvps) {name : CStr} {value : Option CStr} {rest : List (Option CStr)}
    (first : q name = value :: rest) :
    ∃ nvps', takeEntry name nvps = some (value, nvps') ∧
      Offers names (Function.update q name rest) nvps' := by
  rw [← offers.queues] at first
  obtain ⟨nvps', taken, queues⟩ := takeEntry_queue first
  refine ⟨nvps', taken, (takeEntry_spec taken).1.trans offers.names, fun x => ?_⟩
  rw [queues, Function.update_apply, offers.queues]

variable {ν κ ω : Type}

/-- `retrieve_val` takes the first value of the last name that has one. -/
theorem retrieveVal_entry {names : List CStr} {q : CStr → List (Option CStr)}
    {nvps : List NameValPair} {node : ParamNode ν κ} {back : List CStr} {name : CStr}
    {value : Option CStr} {rest : List (Option CStr)} (front : List CStr) (offers : Offers names q nvps)
    (options : node.mntOptNames = front ++ name :: back) (later : ∀ x ∈ back, q x = [])
    (first : q name = value :: rest) :
    ∃ nvps', retrieveVal node nvps = (true, node.receive value, nvps') ∧
      Offers names (Function.update q name rest) nvps' := by
  obtain ⟨nvps', taken, offers'⟩ := offers.take first
  have unfound := findSome?_takeEntry fun x among => offers.absent (later x among)
  refine ⟨nvps', ?_, offers'⟩
  unfold retrieveVal
  rw [options, List.reverse_append, List.reverse_cons, List.append_assoc, List.findSome?_append,
    unfound, Option.none_or, List.singleton_append, List.findSome?_cons, taken]

/-- The queues of names that a node does not have stay when a value is retrieved for it. -/
theorem queue_retrieveVal {node : ParamNode ν κ} {nvps : List NameValPair} {x : CStr}
    (other : x ∉ node.mntOptNames) : queue x (retrieveVal node nvps).2.2 = queue x nvps := by
  have spec := retrieveVal_spec node nvps
  generalize retrieveVal node nvps = result at spec
  cases spec with
  | entry named taken => exact queue_takeEntry taken fun same => other (same ▸ named)
  | default => rfl
  | nothing => rfl

theorem retrieveVal_default {names : List CStr} {q : CStr → List (Option CStr)}
    {nvps : List NameValPair} {node : ParamNode ν κ} {d : CStr} (offers : Offers names q nvps)
    (absent : ∀ x ∈ node.mntOptNames, q x = []) (isDefault : node.defaultVal = some d)
    (real : d ≠ lit "NULL") :
    retrieveVal node nvps = (true, { node with val := some d }, nvps) := by
  have unfound := findSome?_takeEntry fun x among => offers.absent (absent x among)
  unfold retrieveVal
  rw [unfound]
  simp only [isDefault, if_pos real]

variable [DecidableEq ν]

section

variable {names : List CStr} {n m k : ν} {w v w' w'' : World ν κ ω}
  {q q' q'' : CStr → List (Option CStr)}

/-- What `alloc_and_get_val` does for node `n`. -/
def Receives (names : List CStr) (n : ν) (w : World ν κ ω) (q : CStr → List (Option CStr))
    (w' : World ν κ ω) (q' : CStr → List (Option CStr)) : Prop :=
  ∀ nvps, Offers names q nvps → ∃ nvps', Allocs n w nvps w' nvps' ∧ Offers names q' nvps'

/-- A node that takes its value from the list or its default, without asking and without looking at
other nodes. -/
structure Plain (node : ParamNode ν κ) : Prop where
  open_ : node.val = none
  explicit : node.flags.allowImplicitTransition = false
  stdin : node.flags.stdinRequired = false

theorem receives_given (given : (w.nodes n).val.isSome) : Receives names n w q w q :=
  fun nvps offers => ⟨nvps, (Gets.given given).allocs, offers⟩

/-- A node that finds no value. -/
structure Silent (node : ParamNode ν κ) (q : CStr → List (Option CStr)) : Prop extends Plain node where
  absent : ∀ x ∈ node.mntOptNames, q x = []
  noDefault : node.defaultVal = none ∨ node.defaultVal = some (lit "NULL")

theorem receives_nothing (silent : Silent (w.nodes n) q) : Receives names n w q w q := by
  intro nvps offers
  exact ⟨nvps, allocs_nothing silent.open_ silent.explicit silent.stdin
    (fun x among => offers.absent (silent.absent x among)) silent.noDefault, offers⟩

theorem receives_default {d : CStr} (plain : Plain (w.nodes n))
    (absent : ∀ x ∈ (w.nodes n).mntOptNames, q x = []) (isDefault : (w.nodes n).defaultVal = some d)
    (real : d ≠ lit "NULL") :
    Receives names n w q (w.setNode n { w.nodes n with val := some d }) q := by
  intro nvps offers
  have allocs := (@Gets.retrieved _ _ _ _ n w nvps plain.open_ plain.explicit plain.stdin).allocs
  rw [retrieveVal_default offers absent isDefault real] at allocs
  exact ⟨nvps, allocs, offers⟩

/-- A node with several options takes the first value of its last option that has one. -/
theorem receives_among {name v : CStr} {rest : List (Option CStr)} (front back : List CStr)
    (plain : Plain (w.nodes n)) (options : (w.nodes n).mntOptNames = front ++ name :: back)
    (later : ∀ x ∈ back, q x = []) (first : q name = some v :: rest) (real : v ≠ nullText) :
    Receives names n w q (w.setNode n { w.nodes n with val := some v })
      (Function.update q name rest) := by
  intro nvps offers
  obtain ⟨nvps', retrieved, offers'⟩ := retrieveVal_entry front offers options later first
  have allocs := (@Gets.retrieved _ _ _ _ n w nvps plain.open_ plain.explicit plain.stdin).allocs
  rw [retrieved, receive_real real] at allocs
  exact ⟨nvps', allocs, offers'⟩

theorem receives_entry {name v : CStr} {rest : List (Option CStr)} (plain : Plain (w.nodes n))
    (options : (w.nodes n).mntOptNames = [name]) (first : q name = some v :: rest)
    (real : v ≠ nullText) :
    Receives names n w q (w.setNode n { w.nodes n with val := some v })
      (Function.update q name rest) :=
  receives_among [] [] plain options (fun x none_ => by cases none_) first real

/-- A node that an implicit transition passes over: it has no entry and no default. -/
structure PassedOver (w : World ν κ ω) (q : CStr → List (Option CStr)) (n : ν)
    (tn : TransitionNode ν κ) (k : ν) : Prop where
  leads : tn.nextToken = some k
  other : k ≠ n
  absent : ∀ x ∈ (w.nodes k).mntOptNames, q x = []
  noDefault : (w.nodes k).defaultVal = none ∨ (w.nodes k).defaultVal = some (lit "NULL")

theorem implicitLoop_skip {s : EvalState ν κ ω} (offers : Offers names q s.nvps)
    {before : List (TransitionNode ν κ)} (passed : ∀ u ∈ before, ∃ k, PassedOver s.world q n u k)
    (retrieved : Bool) (rest : List (TransitionNode ν κ)) :
    ∃ retrieved', implicitLoop n retrieved (before ++ rest) s = implicitLoop n retrieved' rest s := by
  induction before generalizing retrieved with
  | nil => exact ⟨retrieved, rfl⟩
  | cons u before ih =>
    obtain ⟨k, silent⟩ := passed u List.mem_cons_self
    obtain ⟨retrieved', skipped⟩ := ih (fun v among => passed v (List.mem_cons_of_mem u among)) false
    have nothing : retrieveVal (s.node k) s.nvps = (false, s.node k, s.nvps) :=
      retrieveVal_nothing (fun x among => offers.absent (silent.absent x among)) silent.noDefault
    have same : ({ s.setNode k (s.node k) with nvps := s.nvps } : EvalState ν κ ω) = s := by
      unfold EvalState.setNode EvalState.node
      rw [World.setNode_self]
    refine ⟨retrieved', ?_⟩
    rw [List.cons_append, implicitLoop]
    simp only [silent.leads, nothing, same]
    exact skipped

/-- A node whose transitions lead to a node with an entry in the list, behind some without, gets the
first option of that node for its value, which overrides its default. -/
theorem receives_implicit {d name : CStr} {value : Option CStr} {rest : List (Option CStr)}
    {front back : List CStr} {tn : TransitionNode ν κ} {before tl : List (TransitionNode ν κ)}
    (open_ : (w.nodes n).val = none)
    (implicit : (w.nodes n).flags.allowImplicitTransition = true ∧
      (w.nodes n).flags.implicitOverrideDefault = true ∧ (w.nodes n).flags.noAutoTransition = false)
    (absent : ∀ x ∈ (w.nodes n).mntOptNames, q x = []) (isDefault : (w.nodes n).defaultVal = some d)
    (real : d ≠ lit "NULL") (transitions : (w.nodes n).tl = before ++ tn :: tl)
    (passed : ∀ u ∈ before, ∃ k, PassedOver w q n u k) (leads : tn.nextToken = some m)
    (other : m ≠ n) (options : (w.nodes m).mntOptNames = front ++ name :: back)
    (later : ∀ x ∈ back, q x = []) (first : q name = value :: rest) :
    Receives names n w q
      ((w.setNode m ((w.nodes m).receive value)).setNode n
        { w.nodes n with val := some (printed (w.nodes m).mntOptNames.head?) })
      (Function.update q name rest) := by
  intro nvps offers
  have own := retrieveVal_default offers absent isDefault real
  obtain ⟨nvps', taken, offers'⟩ := retrieveVal_entry front offers options later first
  refine ⟨nvps', fun s here => ?_, offers'⟩
  obtain ⟨rfl, rfl, verbosity⟩ := here
  have same : s.node n = s.world.nodes n := rfl
  have there : ∀ node, ({ s.setNode n node with nvps := s.nvps } : EvalState ν κ ω).node m =
      s.world.nodes m := by
    intro node
    exact (node_setNode s n m node).trans (if_neg other)
  -- the nodes passed over are the same after the node has its default
  have passed' : ∀ node, ∀ u ∈ before, ∃ k,
      PassedOver ({ s.setNode n node with nvps := s.nvps } : EvalState ν κ ω).world q n u k := by
    intro node u among
    obtain ⟨k, silent⟩ := passed u among
    have kept : (s.world.setNode n node).nodes k = s.world.nodes k :=
      World.nodes_setNode_of_ne _ _ silent.other
    exact ⟨k, silent.leads, silent.other, by rw [EvalState.setNode, kept]; exact silent.absent,
      by rw [EvalState.setNode, kept]; exact silent.noDefault⟩
  obtain ⟨retrieved, skipped⟩ := implicitLoop_skip
    (s := { s.setNode n { s.world.nodes n with val := some d } with nvps := s.nvps }) offers
    (passed' _) true (tn :: tl)
  simp only [transitions] at skipped
  unfold allocAndGetVal
  simp only [same, open_, own, implicit.1, implicit.2.1, implicit.2.2, transitions, skipped,
    implicitLoop, leads, there, taken, Option.isSome_none, Bool.false_eq_true, if_false,
    not_true_eq_false, and_false, if_true, and_self]
  refine ⟨_, rfl, ?_, rfl, verbosity⟩
  -- the node is set twice, around the node that follows
  have around : ∀ first last, ((s.world.setNode n first).setNode m
      ((s.world.nodes m).receive value)).setNode n last =
      (s.world.setNode m ((s.world.nodes m).receive value)).setNode n last := by
    intro first last
    rw [s.world.setNode_comm _ _ other.symm, World.setNode_setNode]
  have node : ∀ first, ((s.world.setNode n first).setNode m
      ((s.world.nodes m).receive value)).nodes n = first := by
    intro first
    rw [World.nodes_setNode_of_ne _ _ other.symm, World.nodes_setNode_self]
  have options' : ((s.world.nodes m).receive value).mntOptNames = (s.world.nodes m).mntOptNames := by
    unfold ParamNode.receive
    split <;> rfl
  refine (around _ _).trans ?_
  simp only [EvalState.node, EvalState.setNode, node, options']

/-- A node without a default whose transitions lead to a node with an entry in the list, behind some without,
gets the first option of that node for its value. -/
theorem receives_follows {name : CStr} {value : Option CStr} {rest : List (Option CStr)}
    {front back : List CStr} {tn : TransitionNode ν κ} {before tl : List (TransitionNode ν κ)}
    (open_ : (w.nodes n).val = none)
    (implicit : (w.nodes n).flags.allowImplicitTransition = true ∧ (w.nodes n).flags.noAutoTransition = false)
    (absent : ∀ x ∈ (w.nodes n).mntOptNames, q x = [])
    (noDefault : (w.nodes n).defaultVal = none ∨ (w.nodes n).defaultVal = some (lit "NULL"))
    (transitions : (w.nodes n).tl = before ++ tn :: tl)
    (passed : ∀ u ∈ before, ∃ k, PassedOver w q n u k) (leads : tn.nextToken = some m)
    (other : m ≠ n) (options : (w.nodes m).mntOptNames = front ++ name :: back)
    (later : ∀ x ∈ back, q x = []) (first : q name = value :: rest) :
    Receives names n w q
      ((w.setNode m ((w.nodes m).receive value)).setNode n
        { w.nodes n with val := some (printed (w.nodes m).mntOptNames.head?) })
      (Function.update q name rest) := by
  intro nvps offers
  obtain ⟨nvps', taken, offers'⟩ := retrieveVal_entry front offers options later first
  refine ⟨nvps', fun s here => ?_, offers'⟩
  obtain ⟨rfl, rfl, verbosity⟩ := here
  have nothing : retrieveVal (s.node n) s.nvps = (false, s.node n, s.nvps) :=
    retrieveVal_nothing (fun x among => offers.absent (absent x among)) noDefault
  have same : ({ s.setNode n (s.node n) with nvps := s.nvps } : EvalState ν κ ω) = s := by
    unfold EvalState.setNode EvalState.node
    rw [World.setNode_self]
  obtain ⟨retrieved, skipped⟩ := implicitLoop_skip offers passed false (tn :: tl)
  have open_ : (s.node n).val = none := open_
  have taken : retrieveVal (s.node m) s.nvps = (true, (s.node m).receive value, nvps') := taken
  have transitions : (s.node n).tl = before ++ tn :: tl := transitions
  have implicit : (s.node n).flags.allowImplicitTransition = true ∧
      (s.node n).flags.noAutoTransition = false := implicit
  unfold allocAndGetVal
  simp only [open_, nothing, same, implicit.1, implicit.2, transitions, skipped, implicitLoop, leads, taken,
    Option.isSome_none, Bool.false_eq_true, if_false, false_and, and_self, if_true]
  refine ⟨_, rfl, ?_, rfl, verbosity⟩
  have kept : (s.world.setNode m ((s.world.nodes m).receive value)).nodes n = s.world.nodes n :=
    World.nodes_setNode_of_ne _ _ other.symm
  have options' : ((s.world.nodes m).receive value).mntOptNames = (s.world.nodes m).mntOptNames := by
    unfold ParamNode.receive
    split <;> rfl
  simp only [EvalState.node, EvalState.setNode, kept, options']

/-! ## Runs -/

variable {call : Callbacks ν κ ω}

/-- Some turns lead from node `n` to node `m`. -/
def Walks (call : Callbacks ν κ ω) (names : List CStr) (n : ν) (w : World ν κ ω)
    (q : CStr → List (Option CStr)) (m : ν) (w' : World ν κ ω) (q' : CStr → List (Option CStr)) :
    Prop :=
  ∀ nvps, Offers names q nvps → ∃ nvps', Runs call n w nvps m w' nvps' ∧ Offers names q' nvps'

/-- The evaluation returns the code `rc` and leaves the world `w'` behind. -/
def Ends (call : Callbacks ν κ ω) (names : List CStr) (n : ν) (w : World ν κ ω)
    (q : CStr → List (Option CStr)) (rc : ℤ) (w' : World ν κ ω) : Prop :=
  ∀ nvps, Offers names q nvps → ∀ s, Standing s w nvps →
    ∃ last s', Reaches (evalStep call) (.at n s) (.done rc last s') ∧ s'.world = w'

theorem Walks.trans (first : Walks call names n w q m w' q')
    (second : Walks call names m w' q' k w'' q'') : Walks call names n w q k w'' q'' := by
  intro nvps offers
  obtain ⟨nvps', runs, offers'⟩ := first nvps offers
  obtain ⟨nvps'', runs', offers''⟩ := second nvps' offers'
  exact ⟨nvps'', runs.trans runs', offers''⟩

theorem Walks.ends {rc : ℤ} (first : Walks call names n w q m w' q')
    (second : Ends call names m w' q' rc w'') : Ends call names n w q rc w'' := by
  intro nvps offers s here
  obtain ⟨nvps', runs, offers'⟩ := first nvps offers
  obtain ⟨t, reached, there⟩ := runs s here
  obtain ⟨last, s', reached', world⟩ := second nvps' offers' t there
  exact ⟨last, s', reached.trans reached', world⟩

/-- A transition that is selected neither by a list entry nor by the value `val`. -/
def Free (names : List CStr) (val : Option CStr) (tn : TransitionNode ν κ) : Prop :=
  ∃ label, tn.val = some label ∧ label ∉ names ∧ some label ≠ val

omit [DecidableEq ν] in
theorem Free.unnamed {val : Option CStr} {tn : TransitionNode ν κ} {nvps : List NameValPair}
    (free : Free names val tn) (offers : Offers names q nvps) :
    Unnamed nvps tn ∧ tn.val ≠ val := by
  obtain ⟨label, isLabel, unnamed, other⟩ := free
  exact ⟨⟨label, isLabel, fun named => unnamed (offers.named.mp named)⟩, isLabel ▸ other⟩

theorem walks_default (j : ℕ) (tn : TransitionNode ν κ) (code : ℤ) (receives : Receives names n w q v q')
    (free : ∀ u ∈ (v.nodes n).tl, Free names (v.nodes n).val u)
    (isDefault : tn.val = some (lit "default"))
    (earlier : ∀ i < j, ∀ u, transition v n i = some u → u.val ≠ some (lit "default"))
    (low : j < maxNumTransitions) (noRetry : code ≠ wrongValue)
    (followed : ∀ nvps, Offers names q' nvps → Followed call n nvps m v w' j tn nullTok code) :
    Walks call names n w q m w' q' := by
  intro nvps offers
  obtain ⟨nvps', allocs, offers'⟩ := receives nvps offers
  exact ⟨nvps', (goes_default allocs (fun u among => (free u among).unnamed offers') isDefault earlier
    low noRetry (followed nvps' offers')).runs, offers'⟩

theorem walks_matched (j : ℕ) (tn : TransitionNode ν κ) (receives : Receives names n w q v q')
    (labelled : tn.val.isSome) (same : tn.val = (v.nodes n).val)
    (earlier : ∀ i < j, ∀ u, transition v n i = some u → Free names (v.nodes n).val u)
    (low : j < maxNumTransitions)
    (followed : ∀ nvps, Offers names q' nvps → Followed call n nvps m v w' j tn 0 0) :
    Walks call names n w q m w' q' := by
  intro nvps offers
  obtain ⟨nvps', allocs, offers'⟩ := receives nvps offers
  exact ⟨nvps', (goes_matched allocs labelled same
    (fun i before u there => (earlier i before u there).unnamed offers') low
    (followed nvps' offers')).runs, offers'⟩

/-- A list entry with the label of a transition, whose function returns a code for it. -/
theorem walks_named (j : ℕ) (tn : TransitionNode ν κ) {label : CStr} {code : ℤ}
    (receives : Receives names n w q v q') (hasLabel : tn.val = some label) (named : label ∈ names)
    (other : tn.val ≠ (v.nodes n).val)
    (earlier : ∀ i < j, ∀ u, transition v n i = some u → Free names (v.nodes n).val u)
    (low : j < maxNumTransitions) (token : code = defaultTok ∨ code = nullTok)
    (followed : ∀ nvps, Offers names q' nvps → Followed call n nvps m v w' j tn nullTok code) :
    Walks call names n w q m w' q' := by
  intro nvps offers
  obtain ⟨nvps', allocs, offers'⟩ := receives nvps offers
  refine ⟨nvps', (goes_of_transition allocs fun t here => ?_).runs, offers'⟩
  obtain ⟨rfl, rfl, verbosity⟩ := here
  obtain ⟨slots, skipped⟩ := @selectLoop_skip _ _ _ call n maxNumTransitions 0 j t.nvps t.world tn
    (followed t.nvps offers').taken
    (fun i before u there => (earlier i before u there).unnamed offers') (Nat.zero_le j) (by omega)
  have looped : nvpLoop call t.nvps n j t.nvps t.world = _ :=
    nvpLoop_named hasLabel (offers'.named.mpr named) token (followed t.nvps offers')
  refine ⟨{ t with
    world := w'
    repeated := if t.lastnode = some n then t.repeated else 0
    lastnode := some n }, ?_, rfl, rfl, verbosity⟩
  unfold doTransition
  simp only [skipped, selectLoop, (followed t.nvps offers').taken, other, and_false, if_false, looped]

theorem ends_of_transition {rc : ℤ} (receives : Receives names n w q v q')
    (transitions : ∀ nvps, Offers names q' nvps → ∀ t, Standing t v nvps →
      rc ≠ 0 ∧ ∃ next s', doTransition call n t = .ok (rc, next, s') ∧ s'.world = w') :
    Ends call names n w q rc w' := by
  intro nvps offers s here
  obtain ⟨nvps', allocs, offers'⟩ := receives nvps offers
  obtain ⟨t, allocated, there⟩ := allocs s here
  obtain ⟨nonzero, next, s', transitioned, world⟩ := transitions nvps' offers' t there
  refine ⟨n, s', .single ?_, world⟩
  rw [Option.mem_def, evalStep, allocated]
  simp only [ne_eq, not_true_eq_false, if_false, transitioned, nonzero, not_false_eq_true, if_true]

theorem ends_default (j : ℕ) (tn : TransitionNode ν κ) {rc : ℤ} (receives : Receives names n w q v q')
    (free : ∀ u ∈ (v.nodes n).tl, Free names (v.nodes n).val u)
    (taken : transition v n j = some tn) (isDefault : tn.val = some (lit "default"))
    (earlier : ∀ i < j, ∀ u, transition v n i = some u → u.val ≠ some (lit "default"))
    (low : j < maxNumTransitions)
    (halts : ∀ nvps, Offers names q' nvps → Halts call n nvps v w' j tn rc) :
    Ends call names n w q rc w' := by
  refine ends_of_transition receives fun nvps offers t here => ⟨(halts nvps offers).nonzero, ?_⟩
  obtain ⟨rfl, rfl, verbosity⟩ := here
  have selected : selectLoop call t.nvps n maxNumTransitions 0 t.world = .ok (.passed t.world) :=
    selectLoop_unnamed fun u among => (free u among).unnamed offers
  have looped : defaultLoop call { t with
        repeated := if t.lastnode = some n then t.repeated else 0
        lastnode := some n } n maxNumTransitions 0 = _ :=
    defaultLoop_halt taken isDefault earlier (Nat.zero_le j) (by omega) (halts t.nvps offers)
  unfold doTransition
  simp only [selected, looped]
  exact ⟨_, _, rfl, rfl⟩

/-- A transition with the value of the node ends the evaluation if its function returns a code that is
not zero. -/
theorem ends_matched (j : ℕ) (tn : TransitionNode ν κ) {rc : ℤ} (receives : Receives names n w q v q')
    (taken : transition v n j = some tn) (labelled : tn.val.isSome) (same : tn.val = (v.nodes n).val)
    (earlier : ∀ i < j, ∀ u, transition v n i = some u → Free names (v.nodes n).val u)
    (low : j < maxNumTransitions) (nonzero : rc ≠ 0)
    (called : ∀ nvps, transFunc call 0 tn.transFunc n nvps v = .ok (rc, w'))
    (next : nextToken w' n j = some m) : Ends call names n w q rc w' := by
  refine ends_of_transition receives fun nvps offers t here => ⟨nonzero, ?_⟩
  obtain ⟨rfl, rfl, verbosity⟩ := here
  have found : selectLoop call t.nvps n maxNumTransitions 0 t.world = .ok (.matched j t.world) :=
    selectLoop_found taken labelled same
      (fun i before u there => (earlier i before u there).unnamed offers) (Nat.zero_le j) (by omega)
  unfold doTransition followMatch
  simp only [found, taken, Option.bind_some, called, next]
  exact ⟨_, _, rfl, rfl⟩

/-- A list entry has the label of the first transition, whose function returns a code that does not
select it: the function is called for nothing, and the default transition ends the evaluation. -/
theorem ends_passed (tn : TransitionNode ν κ) {label : CStr} {code rc : ℤ} (once : names.Nodup)
    (receives : Receives names n w q v q') (taken : transition v n 0 = some tn)
    (hasLabel : tn.val = some label) (named : label ∈ names) (other : tn.val ≠ (v.nodes n).val)
    (noToken : code ≠ mountError ∧ code ≠ defaultTok ∧ code ≠ nullTok)
    (called : ∀ nvps, transFunc call nullTok tn.transFunc n nvps v = .ok (code, w'))
    (kept : transition w' n 0 = some tn)
    (free : ∀ k, 1 ≤ k → ∀ u, transition w' n k = some u → Free names (w'.nodes n).val u) (j : ℕ)
    (tn' : TransitionNode ν κ) (taken' : transition w' n j = some tn')
    (isDefault : tn'.val = some (lit "default"))
    (earlier : ∀ i < j, ∀ u, transition w' n i = some u → u.val ≠ some (lit "default"))
    (low : j < maxNumTransitions)
    (halts : ∀ nvps, Offers names q' nvps → Halts call n nvps w' w'' j tn' rc) :
    Ends call names n w q rc w'' := by
  refine ends_of_transition receives fun nvps offers t here => ⟨(halts nvps offers).nonzero, ?_⟩
  obtain ⟨rfl, rfl, verbosity⟩ := here
  have passed : nvpLoop call t.nvps n 0 t.nvps t.world = .ok (.go w') :=
    nvpLoop_passed taken hasLabel (offers.names.symm ▸ once) (offers.named.mpr named) (called t.nvps)
      noToken kept hasLabel
  have others : ∀ slots, selectLoop call t.nvps n slots 1 w' = .ok (.passed w') :=
    fun slots => selectLoop_unnamed_from fun k high u there => (free k high u there).unnamed offers
  have selected : selectLoop call t.nvps n maxNumTransitions 0 t.world = .ok (.passed w') := by
    rw [show maxNumTransitions = 63 + 1 from rfl, selectLoop, taken]
    simp only [other, and_false, if_false, passed, others]
  have looped : defaultLoop call { t with
        world := w'
        repeated := if t.lastnode = some n then t.repeated else 0
        lastnode := some n } n maxNumTransitions 0 = _ :=
    defaultLoop_halt taken' isDefault earlier (Nat.zero_le j) (by omega) (halts t.nvps offers)
  unfold doTransition
  simp only [selected, looped]
  exact ⟨_, _, rfl, rfl⟩

/-- The evaluation fails at a node whose value is no label, if there is no default transition. -/
theorem ends_unmatched (receives : Receives names n w q v q')
    (free : ∀ u ∈ (v.nodes n).tl, Free names (v.nodes n).val u) (some_ : (v.nodes n).tl ≠ [])
    (noDefault : ∀ u ∈ (v.nodes n).tl, u.val ≠ some (lit "default")) :
    Ends call names n w q mountError v := by
  refine ends_of_transition receives fun nvps offers t here => ⟨by decide, ?_⟩
  obtain ⟨rfl, rfl, verbosity⟩ := here
  have selected : selectLoop call t.nvps n maxNumTransitions 0 t.world = .ok (.passed t.world) :=
    selectLoop_unnamed fun u among => (free u among).unnamed offers
  have looped : defaultLoop call { t with
        repeated := if t.lastnode = some n then t.repeated else 0
        lastnode := some n } n maxNumTransitions 0 = .ok none := by
    apply defaultLoop_none
    exact noDefault
  unfold doTransition
  simp only [selected, looped, EvalState.node, some_, ne_eq, not_false_eq_true, if_true]
  exact ⟨_, _, rfl, rfl⟩

/-- A node without transitions ends the evaluation. -/
theorem ends_terminal (receives : Receives names n w q v q') (terminal : (v.nodes n).tl = []) :
    Ends call names n w q nullTok v := by
  refine ends_of_transition receives fun nvps offers t here => ⟨by decide, ?_⟩
  obtain ⟨rfl, rfl, verbosity⟩ := here
  have none_ : transition t.world n 0 = none := by rw [transition, terminal]; rfl
  unfold doTransition maxNumTransitions
  simp only [selectLoop, defaultLoop, none_, EvalState.node, terminal, ne_eq, not_true_eq_false,
    if_false]
  exact ⟨_, _, rfl, rfl⟩

end

end Ecryptfs
