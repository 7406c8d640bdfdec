import ValueNumbering.Proofs.Representation

/-!
# Side effects are never merged

A node with side effects equals no other node. That this also holds of the nodes far below two equal ones
is not obvious, as a comparison does not visit all of them: it stops at nodes that are the same and at pairs
that it has proven already. But equal nodes have operands that are equal in pairs, so equality is handed
down along every path of operands (`View.follow_of_sameTree`), and at the end of the path a side effect
forces the two nodes to be the same (`View.eq_of_sameTree_of_effects`).

No other flag counts. `Arena.effectsOnly` drops all flags but this one, and the verdicts of comparisons stay
the same (`View.equal_effectsOnly`). Dropping flags commutes with every change of an arena
(`Arena.edit_effectsOnly`). So calls that differ in other flags only get the same answers and lead to the
same verdicts, one by one (`Arena.edit_congr`) and in runs (`Arena.performAll_congr`).
`Arena.effects_never_merged` puts both halves together.
-/

namespace ValueNumbering

/-! ### Paths of operands -/

namespace Arena

/-- The node at the end of a path of operand positions, if there is one. -/
def follow (a : Arena) (n : NodeId) : List Nat → Option NodeId
  | [] => some n
  | i :: path => (a.operands n)[i]?.bind fun o => a.follow o path

variable {a : Arena}

theorem follow_cons_eq_some {n m : NodeId} {i : Nat} {path : List Nat} :
    a.follow n (i :: path) = some m ↔
      ∃ o, (a.operands n)[i]? = some o ∧ a.follow o path = some m :=
  Option.bind_eq_some_iff

theorem index_lt_of_follow {n m : NodeId} {path : List Nat} (hn : n.index < a.size)
    (h : a.follow n path = some m) : m.index < a.size := by
  induction path generalizing n with
  | nil => exact Option.some.inj h ▸ hn
  | cons i path ih =>
    obtain ⟨o, ho, hrest⟩ := follow_cons_eq_some.1 h
    exact ih (index_lt_size_of_mem_operands (List.mem_of_getElem? ho)) hrest

end Arena

namespace View

variable {v : View} {x y m : NodeId}

/-- From equal nodes, a path leads to equal nodes. -/
theorem follow_of_sameTree (h : v.sameTree x y) {path : List Nat}
    (hm : v.arena.follow x path = some m) :
    ∃ m', v.arena.follow y path = some m' ∧ v.sameTree m m' := by
  induction path generalizing x y with
  | nil =>
    obtain rfl := Option.some.inj hm
    exact ⟨y, rfl, h⟩
  | cons i path ih =>
    rcases sameTree_iff.1 h with rfl | ⟨-, hops⟩
    · -- a comparison stops here, but from one node the path leads to one node
      exact ⟨m, hm, sameTree_self m⟩
    · obtain ⟨o, ho, hrest⟩ := Arena.follow_cons_eq_some.1 hm
      obtain ⟨hi, rfl⟩ := List.getElem?_eq_some_iff.1 ho
      have hj : i < (v.arena.operands y).length := hops.length_eq ▸ hi
      obtain ⟨m', hm', hsame⟩ := ih (hops.get hi hj) hrest
      refine ⟨m', ?_, hsame⟩
      rw [Arena.follow_cons_eq_some]
      exact ⟨_, List.getElem?_eq_getElem hj, hm'⟩

theorem isSome_follow_of_sameTree (h : v.sameTree x y) (path : List Nat) :
    (v.arena.follow x path).isSome ↔ (v.arena.follow y path).isSome := by
  have hsome : ∀ {x y}, v.sameTree x y → (v.arena.follow x path).isSome →
      (v.arena.follow y path).isSome := by
    intro x y h hx
    obtain ⟨m, hm⟩ := Option.isSome_iff_exists.1 hx
    obtain ⟨m', hm', -⟩ := follow_of_sameTree h hm
    exact Option.isSome_iff_exists.2 ⟨m', hm'⟩
  exact ⟨hsome h, hsome (sameTree_symm h)⟩

theorem eq_of_sameTree_of_effects {p : Node} (h : v.sameTree x y) (hp : v.arena.node? x = some p)
    (he : v.hasEffects p) : x = y := by
  rcases sameTree_iff.1 h with hxy | ⟨ha, -⟩
  · exact hxy
  · obtain ⟨p', q, hp', hq, hpq, -⟩ := agree_iff.1 ha
    obtain rfl := Option.some.inj (hp.symm.trans hp')
    simp [hpq.left_pure] at he

end View

/-! ### Dropping flags -/

/-- Of the flags, only that of side effects. -/
def Flags.effectsOnly (f : Flags) : Flags := ⟨f.bits &&& sideEffects.bits⟩

@[simp] theorem Flags.contains_effectsOnly (f : Flags) :
    f.effectsOnly.contains .sideEffects = f.contains .sideEffects := by
  simp only [contains, effectsOnly, UInt8.and_assoc, UInt8.and_self]

def Node.effectsOnly (q : Node) : Node := { q with flags := q.flags.effectsOnly }

def Edit.effectsOnly : Edit → Edit
  | .push op ty operands flags => .push op ty operands flags.effectsOnly
  | .declare s t => .declare s t

namespace Arena

/-- The arena in which nodes have no flags but that of side effects. -/
def effectsOnly (a : Arena) : Arena where
  nodes := a.nodes.map Node.effectsOnly
  pool := a.pool
  constants := a.constants
  aliases := a.aliases
  ordered := by
    intro i hi
    have hi' : i < a.nodes.size := by simpa using hi
    rw [Array.getElem_map]
    exact a.ordered i hi'

variable (a : Arena)

@[simp] theorem size_effectsOnly : a.effectsOnly.size = a.size := Array.size_map

@[simp] theorem node?_effectsOnly (n : NodeId) :
    a.effectsOnly.node? n = (a.node? n).map Node.effectsOnly :=
  Array.getElem?_map

@[simp] theorem operands_effectsOnly (n : NodeId) : a.effectsOnly.operands n = a.operands n := by
  rw [operands, operands, node?_effectsOnly]
  cases a.node? n <;> rfl

@[simp] theorem node_effectsOnly (n : NodeId) :
    a.effectsOnly.node n = (a.node n).map Node.effectsOnly := by
  rw [node, node, node?_effectsOnly, size_effectsOnly]
  cases a.node? n <;> rfl

@[simp] theorem pool_effectsOnly : a.effectsOnly.pool = a.pool := rfl

/-! ### Changes -/

theorem eq_of_parts {a b : Arena} (hnodes : a.nodes = b.nodes) (hpool : a.pool = b.pool)
    (hconst : a.constants = b.constants) (haliases : a.aliases = b.aliases) : a = b := by
  cases a
  cases b
  cases hnodes
  cases hpool
  cases hconst
  cases haliases
  rfl

theorem push_nodes_effectsOnly (node : Node) :
    a.effectsOnly.nodes.push node.effectsOnly = (a.nodes.push node).map Node.effectsOnly :=
  Array.map_push.symm

theorem constantsWith_effectsOnly (node : Node) :
    a.effectsOnly.constantsWith node.effectsOnly = a.constantsWith node := by
  unfold constantsWith
  rw [size_effectsOnly]
  rfl

theorem allocate_effectsOnly (op : Op) (ty : Ty) (operands : List NodeId) (flags : Flags)
    (h : operands.all (·.index < a.size)) (h' : operands.all (·.index < a.effectsOnly.size)) :
    a.effectsOnly.allocate op ty operands flags.effectsOnly h' =
      ((a.allocate op ty operands flags h).1, (a.allocate op ty operands flags h).2.effectsOnly) := by
  unfold allocate
  -- no condition reads a flag, so both sides are in the same case
  simp only [size_effectsOnly, pool_effectsOnly]
  split
  next => rfl
  next =>
    split
    next =>
      let node : Node := ⟨op, ty, flags, .empty⟩
      have hnodes := a.push_nodes_effectsOnly node
      have hconst := a.constantsWith_effectsOnly node
      exact Prod.ext rfl (eq_of_parts hnodes rfl hconst rfl)
    next =>
      split
      next => rfl
      next =>
        split
        next => rfl
        next =>
          let node : Node := ⟨op, ty, flags, a.nextSpan operands⟩
          have hnodes := a.push_nodes_effectsOnly node
          have hconst := (a.extendPool operands).constantsWith_effectsOnly node
          exact Prod.ext rfl (eq_of_parts hnodes rfl hconst rfl)

/-- Pushing a node and dropping flags can be done in either order. -/
theorem push_effectsOnly (op : Op) (ty : Ty) (operands : List NodeId) (flags : Flags) :
    a.effectsOnly.push op ty operands flags.effectsOnly =
      ((a.push op ty operands flags).1, (a.push op ty operands flags).2.effectsOnly) := by
  have hlit : a.effectsOnly.interned? op ty = a.interned? op ty := rfl
  unfold push
  rw [hlit]
  split
  next => rfl
  next =>
    by_cases h : operands.all (·.index < a.size)
    · have h' : operands.all (·.index < a.effectsOnly.size) := by rwa [size_effectsOnly]
      rw [dif_pos h, dif_pos h']
      split
      next => rfl
      next => exact a.allocate_effectsOnly op ty operands flags h h'
    · have h' : ¬ operands.all (·.index < a.effectsOnly.size) := by rwa [size_effectsOnly]
      rw [dif_neg h, dif_neg h']

/-- A change is answered alike with and without other flags. -/
theorem edit_effectsOnly (e : Edit) :
    a.effectsOnly.edit e.effectsOnly = ((a.edit e).1, (a.edit e).2.effectsOnly) := by
  cases e with
  | push op ty operands flags => simp only [Edit.effectsOnly, edit, push_effectsOnly]
  | declare s t => rfl

/-- Changes that differ in other flags only are answered alike, and lead to arenas that differ in other
flags only. -/
theorem edit_congr {a b : Arena} {e e' : Edit} (hab : b.effectsOnly = a.effectsOnly)
    (h : e'.effectsOnly = e.effectsOnly) :
    (b.edit e').1 = (a.edit e).1 ∧ (b.edit e').2.effectsOnly = (a.edit e).2.effectsOnly := by
  have hb := b.edit_effectsOnly e'
  rw [hab, h, edit_effectsOnly] at hb
  exact ⟨(congrArg Prod.fst hb).symm, (congrArg Prod.snd hb).symm⟩

theorem performAll_congr {a b : Arena} {calls calls' : List Call} (hab : b.effectsOnly = a.effectsOnly)
    (h : calls'.map (·.edit.effectsOnly) = calls.map (·.edit.effectsOnly)) :
    (b.performAll calls').1 = (a.performAll calls).1 ∧
      (b.performAll calls').2.effectsOnly = (a.performAll calls).2.effectsOnly := by
  induction calls generalizing a b calls' with
  | nil =>
    obtain rfl := List.map_eq_nil_iff.1 h
    exact ⟨rfl, hab⟩
  | cons c rest ih =>
    obtain ⟨c', rest', rfl, hc, hrest⟩ := List.map_eq_cons_iff.1 h
    obtain ⟨hanswer, hnext⟩ := edit_congr hab hc
    rw [← perform_eq, ← perform_eq] at hanswer hnext
    obtain ⟨hanswers, hlast⟩ := ih hnext hrest
    rw [performAll_cons, performAll_cons, hanswer, hanswers]
    exact ⟨rfl, hlast⟩

end Arena

/-! ### Verdicts -/

namespace View

/-- The view of the arena in which nodes have no flags but that of side effects. -/
def effectsOnly (v : View) : View := ⟨v.arena.effectsOnly, v.policy⟩

variable (v : View)

@[simp] theorem arena_effectsOnly : v.effectsOnly.arena = v.arena.effectsOnly := rfl

@[simp] theorem hasEffects_effectsOnly (q : Node) : v.effectsOnly.hasEffects q.effectsOnly = v.hasEffects q :=
  congrArg (v.policy.heedsEffects && ·) q.flags.contains_effectsOnly

theorem agree_effectsOnly (x y : NodeId) : v.effectsOnly.agree x y = v.agree x y := by
  simp only [agree, arena_effectsOnly, Arena.node?_effectsOnly, Arena.operands_effectsOnly]
  cases v.arena.node? x with
  | none => rfl
  | some p =>
    cases v.arena.node? y with
    | none => rfl
    | some q =>
      simp only [Option.map_some, hasEffects_effectsOnly]
      rfl

theorem sameTree_effectsOnly (x y : NodeId) : v.effectsOnly.sameTree x y = v.sameTree x y := by
  exact sameTree_congr (P := fun _ => True) (fun _ _ _ _ => trivial) (by simp)
    (fun x y _ _ => v.agree_effectsOnly x y) trivial trivial

theorem equal_effectsOnly (x y : NodeId) : v.effectsOnly.equal x y = v.equal x y := by
  simp only [equal, arena_effectsOnly, Arena.node_effectsOnly, settle_compare_empty,
    sameTree_effectsOnly]
  split
  next => rfl
  next =>
    cases v.arena.node x with
    | error fault => rfl
    | ok p =>
      simp only [Except.map, hasEffects_effectsOnly]
      cases v.arena.node y <;> rfl

theorem equal_congr_effectsOnly {a b : Arena} (h : b.effectsOnly = a.effectsOnly) (p : Policy)
    (x y : NodeId) : (View.mk b p).equal x y = (View.mk a p).equal x y := by
  have ha := (View.mk a p).equal_effectsOnly x y
  have hb := (View.mk b p).equal_effectsOnly x y
  rw [← ha, ← hb]
  unfold effectsOnly
  rw [h]

end View

/-- Nodes are equal only if they lead, along every path of operands, to nodes with the same operation,
and to one and the same node wherever there is a side effect. No other flag has a part in a verdict: an arena
that differs in other flags gives the same verdicts, and does so after further calls, which may themselves
differ in other flags. -/
theorem Arena.effects_never_merged (a : Arena) :
    (∀ x y, x.index < a.size → (View.mk a .full).equal x y = .ok true → ∀ path,
      ((a.follow x path).isSome ↔ (a.follow y path).isSome) ∧
      ∀ m m', a.follow x path = some m → a.follow y path = some m' →
        ∃ q q', a.node? m = some q ∧ a.node? m' = some q' ∧ q.op = q'.op ∧
          (q.flags.contains .sideEffects ∨ q'.flags.contains .sideEffects → m = m')) ∧
    ∀ b : Arena, b.effectsOnly = a.effectsOnly →
      (∀ p x y, (View.mk b p).equal x y = (View.mk a p).equal x y) ∧
      ∀ calls calls', calls'.map (·.edit.effectsOnly) = calls.map (·.edit.effectsOnly) →
        (b.performAll calls').1 = (a.performAll calls).1 ∧
        ∀ p x y, (View.mk (b.performAll calls').2 p).equal x y =
          (View.mk (a.performAll calls).2 p).equal x y := by
  refine ⟨fun x y hx h path => ?_, fun b hb => ⟨View.equal_congr_effectsOnly hb, ?_⟩⟩
  · have hsame := View.equal_eq_true_iff.1 h
    refine ⟨View.isSome_follow_of_sameTree hsame path, fun m m' hm hm' => ?_⟩
    obtain ⟨m'', hm'', hmm⟩ := View.follow_of_sameTree hsame hm
    obtain rfl := Option.some.inj (hm'.symm.trans hm'')
    have hlt := index_lt_of_follow hx hm
    obtain ⟨q, hq⟩ := exists_node hlt
    obtain ⟨q', hq', hop, -⟩ := View.exists_of_sameTree hq hmm
    refine ⟨q, q', hq, hq', hop, fun he => ?_⟩
    rcases he with he | he
    · exact View.eq_of_sameTree_of_effects hmm hq he
    · exact (View.eq_of_sameTree_of_effects (View.sameTree_symm hmm) hq' he).symm
  · intro calls calls' h
    obtain ⟨hanswers, hlast⟩ := performAll_congr hb h
    exact ⟨hanswers, View.equal_congr_effectsOnly hlast⟩

/-- Two calls with side effects, and three conversions, of which two are of the first call. -/
def Arena.convertedCalls : Arena :=
  let a := ((Arena.empty.effectfulCall ⟨1⟩ [] .int).2.effectfulCall ⟨1⟩ [] .int).2
  (((a.convert ⟨0⟩ .bool).2.convert ⟨0⟩ .bool).2.convert ⟨1⟩ .bool).2

/-- Conversions of one call are equal, those of two calls are not, and it makes no difference whether one
more conversion is pushed with a flag. -/
theorem Arena.convertedCalls_never_merged :
    let a := convertedCalls
    (View.mk a .full).equal ⟨2⟩ ⟨3⟩ = .ok true ∧ (View.mk a .full).equal ⟨2⟩ ⟨4⟩ ≠ .ok true ∧
    ∀ x y, (View.mk (a.performAll [.push .convert .bool [⟨1⟩] .mayTrap]).2 .full).equal x y =
      (View.mk (a.performAll [.push .convert .bool [⟨1⟩] .empty]).2 .full).equal x y := by
  intro a
  obtain ⟨hpaths, hflags⟩ := effects_never_merged a
  obtain ⟨-, hhistories⟩ := hflags a rfl
  refine ⟨by decide +kernel, fun h => ?_, ?_⟩
  · obtain ⟨-, hends⟩ := hpaths ⟨2⟩ ⟨4⟩ (by decide +kernel) h [0]
    obtain ⟨q, q', hq, -, -, hsame⟩ := hends ⟨0⟩ ⟨1⟩ (by decide +kernel) (by decide +kernel)
    have heffects : (a.node? ⟨0⟩).all (·.flags.contains .sideEffects) := by decide +kernel
    rw [hq] at heffects
    exact absurd (hsame (.inl heffects)) (by decide)
  · obtain ⟨-, hverdicts⟩ := hhistories [.push .convert .bool [⟨1⟩] .empty]
      [.push .convert .bool [⟨1⟩] .mayTrap] (by decide)
    exact hverdicts .full

end ValueNumbering
