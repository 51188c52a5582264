import Mathlib.Tactic

/-!
# Linked lists in memory

A memory of nodes is a function `next` that gives for each node the one behind it.  `Chain next p l`
says that from the pointer `p` on the memory holds the list `l`; a pointer that runs in a circle holds
no list.  A loop along the pointers is a relation, which has no result where the loop does not end:
`Search` stops at a node, `Walk` visits all of them and may change the pointers on its way.
-/

namespace LinkedList

variable {α : Type*}

/-- From the pointer `p` on there is the list `l`. -/
def Chain (next : α → Option α) : Option α → List α → Prop
  | p, [] => p = none
  | p, a :: l => p = some a ∧ Chain next (next a) l

/-- A loop along the pointers until `stop` holds of a node. -/
inductive Search (next : α → Option α) (stop : α → Bool) : Option α → Option α → Prop
  | nothing : Search next stop none none
  | found {a} (stops : stop a = true) : Search next stop (some a) (some a)
  | skip {a r} (goesOn : stop a = false) (rest : Search next stop (next a) r) :
      Search next stop (some a) r

/-- A loop along the pointers to their end.  A visit changes the state, and with it the pointers. -/
inductive Walk {σ : Type*} (next : σ → α → Option α) (visit : α → σ → σ → Prop) :
    Option α → σ → σ → Prop
  | stop {s} : Walk next visit none s s
  | turn {a s s₁ s'} (visited : visit a s s₁) (rest : Walk next visit (next s₁ a) s₁ s') :
      Walk next visit (some a) s s'

variable {next : α → Option α} {p : Option α} {l l' : List α} {a : α}

theorem Chain.unique (chain : Chain next p l) (chain' : Chain next p l') : l = l' := by
  induction l generalizing p l' with
  | nil =>
    cases l' with
    | nil => rfl
    | cons b l' => exact absurd (chain.symm.trans chain'.1) (by simp)
  | cons a l ih =>
    cases l' with
    | nil => exact absurd (chain.1.symm.trans chain') (by simp)
    | cons b l' =>
      obtain rfl := Option.some.inj (chain.1.symm.trans chain'.1)
      rw [ih chain.2 chain'.2]

/-- Behind a node of a list there is the part of the list behind it. -/
theorem Chain.behind {front : List α} (chain : Chain next p (front ++ a :: l)) :
    Chain next (next a) l := by
  induction front generalizing p with
  | nil => exact chain.2
  | cons b front ih => exact ih chain.2

theorem Chain.head (chain : Chain next p l) : p = l.head? := by
  cases l with
  | nil => exact chain
  | cons a l => exact chain.1

/-- A list depends on the pointers of its own nodes only. -/
theorem Chain.congr {next' : α → Option α} (chain : Chain next p l)
    (same : ∀ a ∈ l, next' a = next a) : Chain next' p l := by
  induction l generalizing p with
  | nil => exact chain
  | cons a l ih =>
    refine ⟨chain.1, ?_⟩
    rw [same a List.mem_cons_self]
    exact ih chain.2 fun b among => same b (List.mem_cons_of_mem a among)

/-- A list that ends does not come to a node twice. -/
theorem Chain.nodup (chain : Chain next p l) : l.Nodup := by
  induction l generalizing p with
  | nil => exact List.nodup_nil
  | cons a l ih =>
    refine List.nodup_cons.mpr ⟨fun again => ?_, ih chain.2⟩
    obtain ⟨front, back, rfl⟩ := List.append_of_mem again
    have same := (chain.2.behind).unique chain.2
    have := congrArg List.length same
    simp only [List.length_append, List.length_cons] at this
    omega

/-- A loop whose every turn has one result, under an invariant of the nodes still to come, has one
result at its end. -/
theorem Walk.exists_unique {σ : Type*} {next : σ → α → Option α} {visit : α → σ → σ → Prop}
    (inv : List α → σ → Prop)
    (turn : ∀ {a l s}, inv (a :: l) s →
      ∃ s₁, (∀ s₂, visit a s s₂ ↔ s₂ = s₁) ∧ next s₁ a = l.head? ∧ inv l s₁)
    {l : List α} {s : σ} (start : inv l s) :
    ∃ s', (∀ s'', Walk next visit l.head? s s'' ↔ s'' = s') ∧ inv [] s' := by
  induction l generalizing s with
  | nil =>
    refine ⟨s, fun s'' => ⟨fun walk => ?_, ?_⟩, start⟩
    · cases walk
      rfl
    · rintro rfl
      exact .stop
  | cons a l ih =>
    obtain ⟨s₁, visited, ahead, rest⟩ := turn start
    obtain ⟨s', walks, finally_⟩ := ih rest
    refine ⟨s', fun s'' => ⟨fun walk => ?_, ?_⟩, finally_⟩
    · cases walk with
      | turn first later =>
        obtain rfl := (visited _).mp first
        rw [ahead] at later
        exact (walks s'').mp later
    · rintro rfl
      refine .turn ((visited s₁).mpr rfl) ?_
      rw [ahead]
      exact (walks s'').mpr rfl

variable [DecidableEq α]

/-- A list does not change with a node outside it. -/
theorem Chain.update (chain : Chain next p l) (outside : a ∉ l) (q : Option α) :
    Chain (Function.update next a q) p l := by
  induction l generalizing p with
  | nil => exact chain
  | cons b l ih =>
    have other : b ≠ a := fun same => outside (same ▸ List.mem_cons_self)
    refine ⟨chain.1, ?_⟩
    rw [Function.update_of_ne other]
    exact ih chain.2 fun among => outside (List.mem_cons_of_mem b among)

/-- A node outside a list is put in front of it. -/
theorem Chain.push (chain : Chain next p l) (outside : a ∉ l) :
    Chain (Function.update next a p) (some a) (a :: l) := by
  refine ⟨rfl, ?_⟩
  rw [Function.update_self]
  exact chain.update outside p

/-- A node outside a list is put behind its last one. -/
theorem Chain.append {last : α} (chain : Chain next p (l ++ [last])) (outside : a ∉ l ++ [last]) :
    Chain (Function.update (Function.update next last (some a)) a none) p (l ++ [last] ++ [a]) := by
  induction l generalizing p with
  | nil =>
    have other : last ≠ a := fun same => outside (same ▸ List.mem_cons_self)
    refine ⟨chain.1, ?_, ?_⟩
    · rw [Function.update_of_ne other, Function.update_self]
    · exact Function.update_self ..
  | cons b l ih =>
    have other : b ≠ a := fun same => outside (same ▸ List.mem_cons_self)
    have once := chain.nodup
    have notLast : b ≠ last := by
      rintro rfl
      exact (List.nodup_cons.mp once).1 (List.mem_append_right _ List.mem_cons_self)
    refine ⟨chain.1, ?_⟩
    rw [Function.update_of_ne other, Function.update_of_ne notLast]
    exact ih chain.2 fun among => outside (List.mem_cons_of_mem b among)

omit [DecidableEq α] in
/-- On a list the search ends with the first node at which it stops. -/
theorem Search.eq_find? {stop : α → Bool} {r : Option α} (search : Search next stop p r)
    (chain : Chain next p l) : r = l.find? stop := by
  induction search generalizing l with
  | nothing =>
    cases l with
    | nil => rfl
    | cons b l => exact absurd chain.1 (by simp)
  | found stops =>
    cases l with
    | nil => exact absurd chain (Option.some_ne_none _)
    | cons b l =>
      obtain rfl := Option.some.inj chain.1
      rw [List.find?_cons_of_pos stops]
  | skip goesOn rest ih =>
    cases l with
    | nil => exact absurd chain (Option.some_ne_none _)
    | cons b l =>
      obtain rfl := Option.some.inj chain.1
      rw [List.find?_cons_of_neg (by simp [goesOn]), ih chain.2]

omit [DecidableEq α] in
/-- On a list the search comes to an end. -/
theorem Chain.search (chain : Chain next p l) (stop : α → Bool) : Search next stop p (l.find? stop) := by
  induction l generalizing p with
  | nil =>
    rw [show p = none from chain]
    exact .nothing
  | cons a l ih =>
    rw [chain.1]
    rcases stops : stop a with _ | _
    · rw [List.find?_cons_of_neg (by simp [stops])]
      exact .skip stops (ih chain.2)
    · rw [List.find?_cons_of_pos stops]
      exact .found stops

end LinkedList
