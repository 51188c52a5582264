import Ecryptfs.CString
import Mathlib.Computability.StateTransition

/-!
# Evaluation of decision graphs

A decision graph is a set of parameter nodes, each with the mount options that may give it a value
and with transitions to other nodes.  Evaluation alternates between `allocAndGetVal`, which finds a
value for the current node in the list of name/value pairs, in its default or by asking the user,
and `doTransition`, which selects a transition in one of three ways: by the value of the node, by
the name of an option in the list, or as the default.

The engine is generic in the names `ν` of the nodes, the names `κ` of the transition callbacks and
in the further state `ω` of the callbacks.  A callback sees the list of name/value pairs and may
change anything but that list.  Nodes are pointers, so that a callback that rewrites a transition of
the current node is seen by the loop that called it; what the loops read is read again after each
call.
-/

namespace Ecryptfs

def nullTok : ℤ := 1
def defaultTok : ℤ := 2
def mountError : ℤ := 3
def wrongValue : ℤ := 4

def maxNumTransitions : ℕ := 64

/-- The flags of a parameter node. -/
structure ParamFlags where
  echoInput : Bool := false
  maskOutput : Bool := false
  allowImplicitTransition : Bool := false
  noValue : Bool := false
  displayTransitionNodeVals : Bool := false
  verifyValue : Bool := false
  stdinRequired : Bool := false
  parameterSet : Bool := false
  forceDisplayNodes : Bool := false
  displayPrettyVals : Bool := false
  noAutoTransition : Bool := false
  implicitOverrideDefault : Bool := false
  nonemptyValueRequired : Bool := false
  deriving DecidableEq

/-- `struct transition_node`, without the text shown to the user. -/
structure TransitionNode (ν κ : Type) where
  val : Option CStr
  nextToken : Option ν
  transFunc : Option κ
  deriving DecidableEq

/-- `struct param_node`, without the texts shown to the user; `num_transitions` is the length of
`tl`. -/
structure ParamNode (ν κ : Type) where
  mntOptNames : List CStr
  val : Option CStr := none
  defaultVal : Option CStr := none
  suggestedVal : Option CStr := none
  flags : ParamFlags := {}
  tl : List (TransitionNode ν κ) := []
  deriving DecidableEq

/-- `struct ecryptfs_name_val_pair`, with the flag `ECRYPTFS_PROCESSED`. -/
structure NameValPair where
  name : CStr
  value : Option CStr
  processed : Bool := false
  deriving DecidableEq

/-- What transition callbacks can change: the nodes, the stack of mount parameters (a pushed null
pointer is `none`), and whatever else they work on. -/
structure World (ν κ ω : Type) where
  nodes : ν → ParamNode ν κ
  stack : List (Option CStr)
  ext : ω

/-- Why an evaluation stops without returning: it waits for input, or it uses a pointer that is null or
to freed memory. -/
inductive Stop where
  | waiting
  | fault
  deriving DecidableEq

/-- The state of an evaluation: what callbacks can change, the list of name/value pairs, the
context, the answers the user will give (a failing `get_string` returns a negative code), and the
static variables of `do_transition`. -/
structure EvalState (ν κ ω : Type) where
  world : World ν κ ω
  nvps : List NameValPair
  verbosity : ℤ
  hasGetString : Bool
  inputs : List (Except {rc : ℤ // rc < 0} CStr)
  repeated : ℕ := 0
  lastnode : Option ν := none

variable {ν κ ω : Type} [DecidableEq ν]

namespace World

/-- The world with node `n` replaced. -/
def setNode (w : World ν κ ω) (n : ν) (node : ParamNode ν κ) : World ν κ ω :=
  { w with nodes := Function.update w.nodes n node }

/-- The world with a field of node `n` changed. -/
def modify (w : World ν κ ω) (n : ν) (f : ParamNode ν κ → ParamNode ν κ) : World ν κ ω :=
  w.setNode n (f (w.nodes n))

def push (w : World ν κ ω) (v : Option CStr) : World ν κ ω := { w with stack := v :: w.stack }

end World

namespace EvalState

def node (s : EvalState ν κ ω) (n : ν) : ParamNode ν κ := s.world.nodes n

def setNode (s : EvalState ν κ ω) (n : ν) (node : ParamNode ν κ) : EvalState ν κ ω :=
  { s with world := s.world.setNode n node }

end EvalState

/-! ## Values -/

/-- The first entry of the given name that is not processed: its value, and the list with the entry
marked. -/
def takeEntry (name : CStr) : List NameValPair → Option (Option CStr × List NameValPair)
  | [] => none
  | e :: es =>
    if e.name = name ∧ e.processed = false then some (e.value, { e with processed := true } :: es)
    else (takeEntry name es).map fun (value, es') => (value, e :: es')

/-- The value a list entry gives: a null pointer and the text `(null)` are no value. -/
def realValue (value : Option CStr) : Option CStr := value.filter (· ≠ nullText)

/-- The node after an entry with the given value was retrieved for it. -/
def ParamNode.receive (node : ParamNode ν κ) (value : Option CStr) : ParamNode ν κ :=
  match realValue value with
  | some v => { node with val := some v }
  | none => { node with flags := { node.flags with parameterSet := true } }

omit [DecidableEq ν] in
theorem receive_real {node : ParamNode ν κ} {v : CStr} (real : v ≠ nullText) :
    node.receive (some v) = { node with val := some v } := by
  have same : realValue (some v) = some v := by
    unfold realValue
    rw [Option.filter_some, if_pos (decide_eq_true real)]
  unfold ParamNode.receive
  rw [same]

/-- `retrieve_val`: whether a value was retrieved, the node, and the list.  The names are tried from
the last one on. -/
def retrieveVal (node : ParamNode ν κ) (nvps : List NameValPair) :
    Bool × ParamNode ν κ × List NameValPair :=
  match node.mntOptNames.reverse.findSome? fun name => takeEntry name nvps with
  | some (value, nvps') => (true, node.receive value, nvps')
  | none =>
    match node.defaultVal with
    | some d => if d ≠ lit "NULL" then (true, { node with val := some d }, nvps)
        else (false, node, nvps)
    | none => (false, node, nvps)

/-- The loop of `alloc_and_get_val` over the nodes that follow by an implicit transition.  The
argument `retrieved` is the variable `value_retrieved`, which keeps its value where a transition has
no next node; the result tells whether the loop found a value. -/
def implicitLoop (n : ν) (retrieved : Bool) :
    List (TransitionNode ν κ) → EvalState ν κ ω → Except Stop (Bool × EvalState ν κ ω)
  | [], s => .ok (false, s)
  | tn :: tl, s =>
    match tn.nextToken with
    | none => if retrieved then .error .fault else implicitLoop n retrieved tl s
    | some m =>
      match retrieveVal (s.node m) s.nvps with
      | (true, node, nvps) =>
        let s := { s.setNode m node with nvps }
        .ok (true, s.setNode n { s.node n with val := some (printed node.mntOptNames.head?) })
      | (false, node, nvps) => implicitLoop n false tl { s.setNode m node with nvps }

/-- The outcome of one call of `get_string`. -/
def getString (s : EvalState ν κ ω) : Except Stop (Except ℤ CStr × EvalState ν κ ω) :=
  match s.inputs with
  | [] => .error .waiting
  | .error rc :: rest => .ok (.error rc, { s with inputs := rest })
  | .ok text :: rest => .ok (.ok text, { s with inputs := rest })

/-- Whether a text is the value of one of the transitions; a transition without a value is
compared through a null pointer. -/
def validVal (text : CStr) : List (TransitionNode ν κ) → Except Stop Bool
  | [] => .ok false
  | tn :: tl =>
    match tn.val with
    | none => .error .fault
    | some v => if text = v then .ok true else validVal text tl

/-- The value an answer to the list of transitions stands for: the number of a transition, the
suggested value for an empty answer, or the value of a transition; `none` asks again. -/
def selection (node : ParamNode ν κ) (text : CStr) : Except Stop (Option CStr) :=
  let val := atoi text
  if 0 < val ∧ val ≤ node.tl.length then
    .ok (some (printed ((node.tl[(val - 1).toNat]?).bind TransitionNode.val)))
  else
    match (if text = [] then node.suggestedVal else some text) with
    | none => .ok none
    | some text =>
      match validVal text node.tl with
      | .error e => .error e
      | .ok true => .ok (some text)
      | .ok false => .ok none

/-- The loop at the label `get_value`, over the answers of the user. -/
def getValue (n : ν) (s : EvalState ν κ ω) :
    List (Except {rc : ℤ // rc < 0} CStr) → Except Stop (ℤ × EvalState ν κ ω)
  | [] => .error .waiting
  | .error rc :: rest => .ok (rc, { s with inputs := rest })
  | .ok text :: rest =>
    match selection (s.node n) text with
    | .error e => .error e
    | .ok (some val) =>
      .ok (0, { s.setNode n { s.node n with val := some val } with inputs := rest })
    | .ok none => getValue n s rest

/-- The loop at the label `obtain_value`, with the number of tries left. -/
def obtainValue (n : ν) : ℕ → EvalState ν κ ω → Except Stop (ℤ × EvalState ν κ ω)
  | 0, s => .ok (einval, s)
  | tries + 1, s =>
    match getString s with
    | .error e => .error e
    | .ok (.error rc, s) => .ok (rc, s)
    | .ok (.ok text, s) =>
      let s := s.setNode n { s.node n with val := some text }
      if text = [] ∧ (s.node n).flags.nonemptyValueRequired then obtainValue n tries s
      else if (s.node n).flags.verifyValue then
        match getString s with
        | .error e => .error e
        | .ok (.error _, s) => .ok (-eio, s)
        | .ok (.ok verify, s) =>
          if verify ≠ text then obtainValue n tries (s.setNode n { s.node n with val := none })
          else .ok (0, s.setNode n
            { s.node n with val := if text = [] then (s.node n).suggestedVal else some text })
      else .ok (0, s.setNode n
        { s.node n with val := if text = [] then (s.node n).suggestedVal else some text })

/-- The part of `alloc_and_get_val` that asks the user. -/
def promptVal (n : ν) (s : EvalState ν κ ω) : Except Stop (ℤ × EvalState ν κ ω) :=
  let node := s.node n
  if s.hasGetString = false then .ok (mountError, s)
  else if node.flags.displayTransitionNodeVals then
    match node.tl, node.flags.forceDisplayNodes with
    | [tn], false => .ok (0, s.setNode n { node with val := some (printed tn.val) })
    | _, _ => getValue n s s.inputs
  else obtainValue n 3 s

/-- The end of `alloc_and_get_val`: the user is asked unless the node or the verbosity forbids it. -/
def askVal (n : ν) (s : EvalState ν κ ω) : Except Stop (ℤ × EvalState ν κ ω) :=
  let flags := (s.node n).flags
  if flags.noValue then .ok (0, s)
  else if s.verbosity = 0 ∧ flags.stdinRequired = false then .ok (0, s)
  else if flags.parameterSet ∧ flags.stdinRequired = false then .ok (0, s)
  else promptVal n s

/-- `alloc_and_get_val`. -/
def allocAndGetVal (n : ν) (s : EvalState ν κ ω) : Except Stop (ℤ × EvalState ν κ ω) :=
  if (s.node n).val.isSome then .ok (0, s)
  else
    match retrieveVal (s.node n) s.nvps with
    | (retrieved, node, nvps) =>
      let s := { s.setNode n node with nvps }
      if retrieved ∧
          ¬ (node.flags.allowImplicitTransition ∧ node.flags.implicitOverrideDefault) then
        .ok (0, s)
      else if node.flags.allowImplicitTransition ∧ node.flags.noAutoTransition = false then
        match implicitLoop n retrieved node.tl s with
        | .error e => .error e
        | .ok (true, s) => .ok (0, s)
        | .ok (false, s) => askVal n s
      else askVal n s

/-! ## Transitions -/

section

/-- The transition callbacks: their code and what they leave behind. -/
abbrev Callbacks (ν κ ω : Type) :=
  κ → ν → List NameValPair → World ν κ ω → Except Stop (ℤ × World ν κ ω)

variable (call : Callbacks ν κ ω)

/-- The result of a transition function, or `code` if there is none. -/
def transFunc (code : ℤ) (f : Option κ) (current : ν) (nvps : List NameValPair)
    (w : World ν κ ω) : Except Stop (ℤ × World ν κ ω) :=
  match f with
  | none => .ok (code, w)
  | some f => call f current nvps w

/-- Transition number `i` of the current node, as it is now. -/
def transition (w : World ν κ ω) (current : ν) (i : ℕ) : Option (TransitionNode ν κ) :=
  (w.nodes current).tl[i]?

/-- The next node of transition number `i`, as it is now. -/
def nextToken (w : World ν κ ω) (current : ν) (i : ℕ) : Option ν :=
  (transition w current i).bind TransitionNode.nextToken

/-- How a loop over the transitions ends: the function returns a code and the next node, or the
loop goes on. -/
inductive Flow (ν κ ω : Type) where
  | ret (rc : ℤ) (next : Option ν) (w : World ν κ ω)
  | go (w : World ν κ ω)

/-- The loop over the list of name/value pairs for transition number `i`: an entry with the name of
the transition selects it. -/
def nvpLoop (nvps : List NameValPair) (current : ν) (i : ℕ) :
    List NameValPair → World ν κ ω → Except Stop (Flow ν κ ω)
  | [], w => .ok (.go w)
  | e :: es, w =>
    match transition w current i with
    | none => .ok (.go w)
    | some tn =>
      if tn.val.isSome ∧ tn.val ≠ some e.name then nvpLoop nvps current i es w
      else
        match transFunc call nullTok tn.transFunc current nvps w with
        | .error stop => .error stop
        | .ok (code, w) =>
          if code = mountError then .ok (.ret code none w)
          else if code = defaultTok ∨ code = nullTok then
            match nextToken w current i with
            | some next => .ok (.ret 0 (some next) w)
            | none => .ok (.ret (-einval) none w)
          else nvpLoop nvps current i es w

/-- What the first loop of `do_transition` comes to: a transition with the value of the node, a
return out of the loop over the list, or its end. -/
inductive Selected (ν κ ω : Type) where
  | matched (i : ℕ) (w : World ν κ ω)
  | ret (rc : ℤ) (next : Option ν) (w : World ν κ ω)
  | passed (w : World ν κ ω)

/-- The first loop of `do_transition` from transition number `i` on, with the number of slots that
are left, up to the point where a transition has the value of the node. -/
def selectLoop (nvps : List NameValPair) (current : ν) :
    ℕ → ℕ → World ν κ ω → Except Stop (Selected ν κ ω)
  | 0, _, w => .ok (.passed w)
  | slots + 1, i, w =>
    match transition w current i with
    | none => .ok (.passed w)
    | some tn =>
      if tn.val.isSome ∧ tn.val = (w.nodes current).val then .ok (.matched i w)
      else
        match nvpLoop call nvps current i nvps w with
        | .error stop => .error stop
        | .ok (.ret rc next w) => .ok (.ret rc next w)
        | .ok (.go w) => selectLoop nvps current slots (i + 1) w

/-- The transition with the value of the node is followed, with the code of its function. -/
def followMatch (nvps : List NameValPair) (current : ν) (i : ℕ) (w : World ν κ ω) :
    Except Stop (ℤ × Option ν × World ν κ ω) :=
  match transFunc call 0 ((transition w current i).bind TransitionNode.transFunc) current nvps w with
  | .error stop => .error stop
  | .ok (rc, w) =>
    match nextToken w current i with
    | some next => .ok (rc, some next, w)
    | none => .ok (einval, none, w)

/-- The second loop of `do_transition`: the first default transition.  The result `none` tells that
there is none. -/
def defaultLoop (s : EvalState ν κ ω) (current : ν) :
    ℕ → ℕ → Except Stop (Option (ℤ × Option ν × EvalState ν κ ω))
  | 0, _ => .ok none
  | slots + 1, i =>
    match transition s.world current i with
    | none => .ok none
    | some tn =>
      if tn.val ≠ some (lit "default") then defaultLoop s current slots (i + 1)
      else
        match transFunc call nullTok tn.transFunc current s.nvps s.world with
        | .error stop => .error stop
        | .ok (code, w) =>
          let s := { s with world := w }
          if code = wrongValue then
            if s.verbosity ≠ 0 ∨ (s.node current).flags.stdinRequired then
              let s := { s with repeated := s.repeated + 1 }
              if s.repeated ≥ 5 then .ok (some (-einval, none, s))
              else .ok (some (0, some current, s))
            else .ok (some (-einval, none, s))
          else if code = mountError ∨ code < 0 then .ok (some (code, none, s))
          else
            match nextToken w current i with
            | some next => .ok (some (0, some next, s))
            | none => .ok (some (-einval, none, s))

/-- `do_transition`: the code and the next node. -/
def doTransition (current : ν) (s : EvalState ν κ ω) :
    Except Stop (ℤ × Option ν × EvalState ν κ ω) :=
  let s := { s with
    repeated := if s.lastnode = some current then s.repeated else 0
    lastnode := some current }
  match selectLoop call s.nvps current maxNumTransitions 0 s.world with
  | .error stop => .error stop
  | .ok (.matched i w) =>
    match followMatch call s.nvps current i w with
    | .error stop => .error stop
    | .ok (rc, next, w) => .ok (rc, next, { s with world := w })
  | .ok (.ret rc next w) => .ok (rc, next, { s with world := w })
  | .ok (.passed w) =>
    let s := { s with world := w }
    match defaultLoop call s current maxNumTransitions 0 with
    | .error stop => .error stop
    | .ok (some result) => .ok result
    | .ok none => .ok (if (s.node current).tl ≠ [] then mountError else nullTok, none, s)

/-! ## Runs -/

/-- Where an evaluation stands: at a node, returned from the node it was at last, or stopped. -/
inductive Config (ν κ ω : Type) where
  | at (n : ν) (s : EvalState ν κ ω)
  | done (rc : ℤ) (last : ν) (s : EvalState ν κ ω)
  | stopped (why : Stop)

/-- One turn of the loop of `eval_param_tree`. -/
def evalStep : Config ν κ ω → Option (Config ν κ ω)
  | .at n s =>
    match allocAndGetVal n s with
    | .error why => some (.stopped why)
    | .ok (rc, s) =>
      if rc ≠ 0 then some (.done rc n s)
      else
        match doTransition call n s with
        | .error why => some (.stopped why)
        | .ok (rc, next, s) =>
          if rc ≠ 0 then some (.done rc n s)
          else
            match next with
            | some m => some (.at m s)
            | none => some (.stopped .fault)
  | .done _ _ _ => none
  | .stopped _ => none

/-- `get_verbosity`; the value of the entry is converted without a test for a null pointer. -/
def getVerbosity (nvps : List NameValPair) : Except Stop ℤ :=
  match nvps.find? fun e => e.name = lit "verbosity" with
  | none => .ok 1
  | some e =>
    match e.value with
    | none => .error .fault
    | some text => .ok (atoi text)

/-- The start of `eval_param_tree`, called by `ecryptfs_eval_decision_graph` with a stack that only
holds its sentinel. -/
def evalStart (root : ν) (s : EvalState ν κ ω) : Config ν κ ω :=
  match getVerbosity s.nvps with
  | .error why => .stopped why
  | .ok verbosity => .at root
      { s with verbosity, world := { s.world with stack := [none] } }

/-- What `ecryptfs_eval_decision_graph` makes of the code of `eval_param_tree`. -/
def evalResult (rc : ℤ) : ℤ := if 0 < rc ∧ rc ≠ mountError then 0 else rc

end

end Ecryptfs
