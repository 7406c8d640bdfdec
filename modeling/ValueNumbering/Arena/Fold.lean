import ValueNumbering.Arena.Basic

/-!
# Folding over the graph

`Arena.fold` computes something about a node from the same thing about its operands. It reads the
graph as a tree, so a node that is used twice is visited twice.

`Arena.fill` computes the same results but remembers them: it keeps the tasks still to be done in a
list of their own and visits each node once. `Arena.fill_sound` says that what it remembers is what
`fold` computes, and `Arena.getElem?_fill` that the node asked for is then remembered.
-/

namespace ValueNumbering.Arena

variable {β : Type}

/-- Computes a result for a node from the results for its operands. -/
def fold (a : Arena) (f : NodeId → List β → β) (n : NodeId) : β :=
  f n ((a.operands n).attach.map fun o => a.fold f o.1)
termination_by n.index
decreasing_by exact index_lt_of_mem_operands o.2

theorem fold_eq (a : Arena) (f : NodeId → List β → β) (n : NodeId) :
    a.fold f n = f n ((a.operands n).map (a.fold f)) := by
  rw [fold, List.attach_map_val]

/-! ### Counting steps -/

/-- The nodes that a walk passes at and below a node, if nothing is remembered: each when it is come upon,
and again when its operands are done. -/
def steps (a : Arena) (n : NodeId) : List NodeId :=
  a.fold (fun n below => n :: below.flatten ++ [n]) n

theorem steps_eq (a : Arena) (n : NodeId) :
    a.steps n = n :: (a.operands n).flatMap a.steps ++ [n] := by
  rw [steps, fold_eq, List.flatMap_def]
  rfl

/-! ### Remembering results -/

/-- Results that are remembered for some nodes. -/
abbrev Memo (β : Type) := Std.TreeMap NodeId β

/-- What is left to do in a walk over the graph. -/
inductive Task
  /-- See to it that the node has a result. -/
  | visit (n : NodeId)
  /-- Compute the node's result; its operands have theirs. -/
  | finish (n : NodeId)
deriving DecidableEq, Repr

/-- The node that a task is about. -/
def Task.node : Task → NodeId
  | visit n | finish n => n

/-- The nodes that a task passes, if nothing is remembered. -/
def Task.steps (a : Arena) : Task → List NodeId
  | visit n => a.steps n
  | finish n => [n]

theorem flatMap_steps_visit (a : Arena) (ns : List NodeId) :
    (ns.map Task.visit).flatMap (Task.steps a) = ns.flatMap a.steps :=
  List.flatMap_map ..

/-- Does the tasks in order and returns all that is remembered then. -/
def work (a : Arena) (f : NodeId → List β → β) (tasks : List Task) (memo : Memo β) : Memo β :=
  match tasks with
  | [] => memo
  | .visit n :: rest =>
    if memo.contains n then a.work f rest memo
    else a.work f ((a.operands n).map .visit ++ .finish n :: rest) memo
  | .finish n :: rest =>
    a.work f rest (memo.insert n (f n ((a.operands n).filterMap (memo[·]?))))
termination_by (tasks.flatMap (Task.steps a)).length
decreasing_by
  · simp only [List.flatMap_cons, List.length_append, Task.steps, steps_eq a n, List.length_cons]
    omega
  · simp only [List.flatMap_append, List.flatMap_cons, flatMap_steps_visit, List.length_append,
      Task.steps, steps_eq a n, List.length_cons, List.length_nil]
    omega
  · simp only [List.flatMap_cons, List.length_append, Task.steps, List.length_cons]
    omega

/-- Remembers the result for a node and for all nodes below it. What is remembered already is not
computed again. -/
def fill (a : Arena) (f : NodeId → List β → β) (n : NodeId) (memo : Memo β) : Memo β :=
  a.work f [.visit n] memo

/-! ### What is remembered is right -/

/-- Every remembered result is the one that `fold` computes. -/
def Memo.Sound (a : Arena) (f : NodeId → List β → β) (memo : Memo β) : Prop :=
  ∀ n b, memo[n]? = some b → b = a.fold f n

/-- Every node to be finished comes after its operands, once those in `seen` are done. -/
def Ready (a : Arena) (seen : NodeId → Prop) : List Task → Prop
  | [] => True
  | .visit n :: rest => Ready a (fun o => seen o ∨ o = n) rest
  | .finish n :: rest => (∀ o ∈ a.operands n, seen o) ∧ Ready a (fun o => seen o ∨ o = n) rest

theorem Ready.mono {a : Arena} {seen more : NodeId → Prop} {tasks : List Task}
    (h : Ready a seen tasks) (hs : ∀ o, seen o → more o) : Ready a more tasks := by
  induction tasks generalizing seen more with
  | nil => trivial
  | cons t rest ih =>
    cases t with
    | visit n => exact ih h fun o => Or.imp_left (hs o)
    | finish n => exact ⟨fun o ho => hs o (h.1 o ho), ih h.2 fun o => Or.imp_left (hs o)⟩

theorem ready_visits {a : Arena} {seen : NodeId → Prop} {ns : List NodeId} {tasks : List Task}
    (h : Ready a (fun o => seen o ∨ o ∈ ns) tasks) :
    Ready a seen (ns.map .visit ++ tasks) := by
  induction ns generalizing seen with
  | nil => exact h.mono fun o ho => ho.resolve_right (by simp)
  | cons n ns ih =>
    have hr : Ready a (fun o => (seen o ∨ o = n) ∨ o ∈ ns) tasks :=
      h.mono fun o ho => by simpa [or_assoc] using ho
    exact ih hr

theorem Memo.Sound.getElem?_eq {a : Arena} {f : NodeId → List β → β} {memo : Memo β}
    (h : memo.Sound a f) {n : NodeId} (hn : n ∈ memo) : memo[n]? = some (a.fold f n) := by
  rw [Std.TreeMap.getElem?_eq_some_getElem hn]
  exact congrArg some (h n _ (Std.TreeMap.getElem?_eq_some_getElem hn))

/-- A sound memory that has all operands of a node answers for all of them. -/
theorem Memo.Sound.filterMap_eq {a : Arena} {f : NodeId → List β → β} {memo : Memo β}
    (h : memo.Sound a f) {ns : List NodeId} (hs : ∀ o ∈ ns, o ∈ memo) :
    ns.filterMap (memo[·]?) = ns.map (a.fold f) := by
  induction ns with
  | nil => rfl
  | cons n ns ih =>
    obtain ⟨hn, hs⟩ := List.forall_mem_cons.1 hs
    rw [List.filterMap_cons_some (h.getElem?_eq hn), ih hs, List.map_cons]

/-- What the computation of one result keeps, once the operands have theirs, is kept by all the
work. -/
theorem work_keeps {a : Arena} {f : NodeId → List β → β} {I : Memo β → Prop}
    (step : ∀ memo n, I memo → (∀ o ∈ a.operands n, o ∈ memo) →
      I (memo.insert n (f n ((a.operands n).filterMap (memo[·]?)))))
    {tasks : List Task} {memo : Memo β} (hm : I memo) (ht : Ready a (· ∈ memo) tasks) :
    I (a.work f tasks memo) := by
  fun_induction work a f tasks memo with
  | case1 memo => exact hm
  | case2 memo n rest hn ih =>
    have hr : Ready a (fun o => o ∈ memo ∨ o = n) rest := ht
    exact ih hm (hr.mono fun o ho => ho.elim id fun e => e ▸ hn)
  | case3 memo n rest hn ih =>
    have hr : Ready a (fun o => o ∈ memo ∨ o = n) rest := ht
    exact ih hm (ready_visits ⟨fun o ho => .inr ho, hr.mono fun o ho => ho.imp_left .inl⟩)
  | case4 memo n rest ih =>
    obtain ⟨hops, hr⟩ := ht
    refine ih (step memo n hm hops) (hr.mono fun o ho => ?_)
    rw [Std.TreeMap.mem_insert]
    rcases ho with ho | rfl
    · exact .inr ho
    · exact .inl Std.ReflCmp.compare_self

theorem work_sound {a : Arena} {f : NodeId → List β → β} {tasks : List Task} {memo : Memo β}
    (hm : memo.Sound a f) (ht : Ready a (· ∈ memo) tasks) :
    Memo.Sound a f (a.work f tasks memo) := by
  refine work_keeps (fun memo n hm hops k b hk => ?_) hm ht
  rw [Std.TreeMap.getElem?_insert] at hk
  split at hk
  next e =>
    cases Std.LawfulEqCmp.eq_of_compare e
    rw [fold_eq, ← hm.filterMap_eq hops]
    exact (Option.some.inj hk).symm
  next => exact hm k b hk

/-- Doing tasks forgets nothing, and gives a result to each node that the tasks are about. -/
theorem mem_work (a : Arena) (f : NodeId → List β → β) (tasks : List Task) (memo : Memo β) :
    (∀ n ∈ memo, n ∈ a.work f tasks memo) ∧ ∀ t ∈ tasks, t.node ∈ a.work f tasks memo := by
  fun_induction work a f tasks memo with
  | case1 memo => exact ⟨fun _ => id, by simp⟩
  | case2 memo n rest hn ih => exact ⟨ih.1, List.forall_mem_cons.2 ⟨ih.1 n hn, ih.2⟩⟩
  | case3 memo n rest hn ih =>
    refine ⟨ih.1, List.forall_mem_cons.2 ⟨?_, fun t ht => ih.2 t (by simp [ht])⟩⟩
    exact ih.2 (.finish n) (by simp)
  | case4 memo n rest ih =>
    refine ⟨fun k hk => ih.1 k (Std.TreeMap.mem_insert.2 (.inr hk)), ?_⟩
    exact List.forall_mem_cons.2 ⟨ih.1 n Std.TreeMap.mem_insert_self, ih.2⟩

theorem ready_visit (a : Arena) (seen : NodeId → Prop) (n : NodeId) :
    Ready a seen [.visit n] := trivial

theorem fill_sound {a : Arena} {f : NodeId → List β → β} {memo : Memo β} (h : memo.Sound a f)
    (n : NodeId) : Memo.Sound a f (a.fill f n memo) :=
  work_sound h (ready_visit a _ n)

theorem mem_fill_self (a : Arena) (f : NodeId → List β → β) (n : NodeId) (memo : Memo β) :
    n ∈ a.fill f n memo :=
  (a.mem_work f [.visit n] memo).2 (.visit n) (by simp)

theorem getElem?_fill {a : Arena} {f : NodeId → List β → β} {memo : Memo β} (h : memo.Sound a f)
    (n : NodeId) : (a.fill f n memo)[n]? = some (a.fold f n) :=
  (fill_sound h n).getElem?_eq (a.mem_fill_self f n memo)

end ValueNumbering.Arena
