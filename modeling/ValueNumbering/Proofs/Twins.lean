import ValueNumbering.Proofs.KnownValues
import ValueNumbering.Proofs.Representation

/-!
# Twins share values

A script of pushes whose steps refer to each other by position can be built more than once in an
arena. Each time it makes new nodes, apart from literals, which are found again. The nodes that one
step made are twins: no comparison with a third node tells them apart (`View.Twins`). This is more
than being equal, as equality is not transitive when interchangeable types are not; it holds because
twins have the very same type, and operands that are twins (`View.twins_of_nodes`).

`Pass.twins_share_values` is the result: where a session has numbered the first copy, the second
copy gets the same values, step by step, and nothing new is allocated.
-/

namespace ValueNumbering

/-! ### Scripts -/

/-- A step of a script: what is pushed, and the versions of the memory at which it is numbered. -/
structure Step where
  op : Op
  ty : Ty
  /-- The positions of the steps that made the operands. -/
  operands : List Nat
  flags : Flags
  deps : List MemVersion
deriving DecidableEq, Repr

/-- The number of nodes that a script needs at least: literals may be there already. -/
def newNodes (script : List Step) : Nat := script.countP fun s => s.op.kind ≠ .constant

theorem newNodes_cons (s : Step) (script : List Step) :
    newNodes (s :: script) = newNodes script + if s.op.kind = .constant then 0 else 1 := by
  rw [newNodes, List.countP_cons]
  by_cases hc : s.op.kind = .constant <;> simp [hc, newNodes]

/-- The node has the operation of the step. -/
def View.MadeBy (v : View) (s : Step) (n : NodeId) : Prop :=
  ∃ q, v.arena.node? n = some q ∧ q.op = s.op

namespace Arena

/-- Pushes the nodes of a script, where `built` has the nodes of the steps before it. There is no
result if a step refers to one that does not stand before it, or if a push is refused. -/
def buildOn (a : Arena) (built : List NodeId) : List Step → Option (List NodeId × Arena)
  | [] => some ([], a)
  | s :: rest =>
    match s.operands.mapM (built[·]?) with
    | none => none
    | some operands =>
      match a.push s.op s.ty operands s.flags with
      | (.error _, _) => none
      | (.ok n, b) => (b.buildOn (built ++ [n]) rest).map fun r => (n :: r.1, r.2)

/-- Pushes the nodes of a script, and returns them in the order of its steps. -/
def build (a : Arena) (script : List Step) : Option (List NodeId × Arena) := a.buildOn [] script

/-- The script, built after the nodes in `built`, makes the given nodes and leads to the last
arena. -/
inductive Builds : Arena → List NodeId → List Step → List NodeId → Arena → Prop
  | nil (a : Arena) (built : List NodeId) : Builds a built [] [] a
  | cons {a b c : Arena} {built operands nodes : List NodeId} {s : Step} {rest : List Step}
      {n : NodeId} (hops : s.operands.mapM (built[·]?) = some operands)
      (hpush : a.push s.op s.ty operands s.flags = (.ok n, b))
      (hrest : Builds b (built ++ [n]) rest nodes c) : Builds a built (s :: rest) (n :: nodes) c

theorem builds_of_buildOn {a b : Arena} {built nodes : List NodeId} {script : List Step}
    (h : a.buildOn built script = some (nodes, b)) : Builds a built script nodes b := by
  induction script generalizing a built nodes with
  | nil =>
    cases h
    exact .nil b built
  | cons s rest ih =>
    rw [buildOn] at h
    split at h
    next => simp at h
    next operands hops =>
      split at h
      next => simp at h
      next n b' hpush =>
        obtain ⟨⟨nodes', c⟩, hrest, hr⟩ := Option.map_eq_some_iff.1 h
        cases hr
        exact .cons hops hpush (ih hrest)

namespace Builds

variable {a b c : Arena} {built nodes : List NodeId} {script : List Step}

theorem length_eq (h : Builds a built script nodes b) : nodes.length = script.length := by
  induction h with
  | nil a built => rfl
  | cons hops hpush hrest ih => simp [ih]

theorem precedes (h : Builds a built script nodes b) : a.Precedes b := by
  induction h with
  | nil a built => exact .refl a
  | cons hops hpush hrest ih => exact (precedes_of_push hpush).trans ih

theorem reachable (h : Builds a built script nodes b) (ha : a.Reachable) : b.Reachable := by
  induction h with
  | nil a built => exact ha
  | cons hops hpush hrest ih => exact ih (ha.of_push hpush)

theorem madeBy (h : Builds a built script nodes b) (ha : a.Reachable) (hbc : b.Extends c)
    (p : Policy) : List.Forall₂ (View.mk c p).MadeBy script nodes := by
  induction h with
  | nil a built => exact .nil
  | cons hops hpush hrest ih =>
    obtain ⟨q, hq, hop⟩ := ha.op_of_push hpush
    exact .cons ⟨q, (hrest.precedes.grown.trans hbc).node? hq, hop⟩ (ih (ha.of_push hpush) hbc)

/-- Every step that is not a literal makes a new node. -/
theorem size_le (h : Builds a built script nodes b) : a.size + newNodes script ≤ b.size := by
  induction h with
  | nil a built => exact Nat.le_refl _
  | cons hops hpush hrest ih =>
    have hold := size_le_of_push hpush
    rw [newNodes_cons]
    split
    next => omega
    next hc =>
      have hnew := (node?_of_push hc hpush).1
      omega

end Builds

end Arena

/-! ### Twins -/

namespace View

variable {v : View} {x y z : NodeId} {p q : Node}

/-- No comparison tells the two nodes apart, and if they are constants they are the same. -/
structure Twins (v : View) (x y : NodeId) : Prop where
  sameTree_eq : ∀ z, v.sameTree z x = v.sameTree z y
  eq_of_constant : v.isConstant x → x = y

theorem Twins.refl (x : NodeId) : v.Twins x x := ⟨fun _ => rfl, fun _ => rfl⟩

theorem Twins.sameTree (h : v.Twins x y) : v.sameTree x y := by
  rw [← h.sameTree_eq x]
  exact sameTree_self x

/-- What equals a node equals another one of the same operation and type, if their operands cannot
be told apart. -/
theorem sameTree_of_operands (hp : v.arena.node? x = some p) (hq : v.arena.node? y = some q)
    (hop : p.op = q.op) (hty : p.ty = q.ty) (hpp : v.hasEffects p = false)
    (hqp : v.hasEffects q = false)
    (hops : List.Forall₂ (fun o o' => ∀ z, v.sameTree z o = v.sameTree z o')
      (v.arena.operands x) (v.arena.operands y))
    (hz : v.sameTree z x) : v.sameTree z y := by
  rcases sameTree_iff.1 hz with rfl | ⟨ha, hzx⟩
  · refine sameTree_of_alike hp hq ⟨hpp, hqp, hop, by simp [interchangeable, hty]⟩ ?_
    exact hops.imp fun o o' h => h o ▸ sameTree_self o
  · obtain ⟨r, p', hr, hp', hrp, -⟩ := agree_iff.1 ha
    obtain rfl := Option.some.inj (hp.symm.trans hp')
    refine sameTree_of_alike hr hq
      ⟨hrp.left_pure, hqp, hrp.op_eq.trans hop, hty ▸ hrp.types⟩ ?_
    -- pair the operands of `z` with those of `y` through those of `x`
    rw [List.forall₂_iff_get] at hzx hops ⊢
    refine ⟨hzx.1.trans hops.1, fun i hi hj => ?_⟩
    rw [← hops.2 i (hzx.1 ▸ hi) hj]
    exact hzx.2 i hi (hzx.1 ▸ hi)

theorem twins_of_nodes (hp : v.arena.node? x = some p) (hq : v.arena.node? y = some q)
    (hc : p.op.kind ≠ .constant) (hop : p.op = q.op) (hty : p.ty = q.ty)
    (hpp : v.hasEffects p = false) (hqp : v.hasEffects q = false)
    (hops : List.Forall₂ v.Twins (v.arena.operands x) (v.arena.operands y)) : v.Twins x y := by
  have hxy := hops.imp fun o o' h => h.sameTree_eq
  have hyx : List.Forall₂ (fun o o' => ∀ z, v.sameTree z o = v.sameTree z o')
      (v.arena.operands y) (v.arena.operands x) :=
    (hops.imp fun o o' h z => (h.sameTree_eq z).symm).flip
  refine ⟨fun z => Bool.eq_iff_iff.2 ⟨?_, ?_⟩, fun h => absurd ((isConstant_iff hp).1 h) hc⟩
  · exact sameTree_of_operands hp hq hop hty hpp hqp hxy
  · exact sameTree_of_operands hq hp hop.symm hty.symm hqp hpp hyx

theorem isConstant_eq_of_sameTree (h : v.sameTree x y) : v.isConstant x = v.isConstant y := by
  rcases sameTree_iff.1 h with rfl | ⟨ha, -⟩
  · rfl
  · obtain ⟨p, q, hp, hq, hpq, -⟩ := agree_iff.1 ha
    rw [Bool.eq_iff_iff, isConstant_iff hp, isConstant_iff hq, hpq.op_eq]

theorem Twins.value?_eq (h : v.Twins x y) (l : Ledger) (deps : List MemVersion) :
    l.value? v ⟨x, deps⟩ = l.value? v ⟨y, deps⟩ := by
  by_cases hc : v.isConstant x
  · rw [h.eq_of_constant hc]
  · have hc' : ¬ v.isConstant y := by rwa [← isConstant_eq_of_sameTree h.sameTree]
    have hkey : ∀ k, v.sameKey k ⟨x, deps⟩ = v.sameKey k ⟨y, deps⟩ := by
      intro k
      rw [Bool.eq_iff_iff, sameKey_iff, sameKey_iff, h.sameTree_eq]
    rw [Ledger.value?_eq_find hc, Ledger.value?_eq_find hc']
    simp only [Ledger.find, Ledger.entry?, hkey]

end View

/-! ### Building a script twice -/

theorem forall₂_of_mapM_getElem? {α β : Type} {R : α → β → Prop} {xs : List α} {ys : List β}
    (h : List.Forall₂ R xs ys) {positions : List Nat} {us : List α} {vs : List β}
    (hu : positions.mapM (xs[·]?) = some us) (hv : positions.mapM (ys[·]?) = some vs) :
    List.Forall₂ R us vs := by
  induction positions generalizing us vs with
  | nil =>
    cases hu
    cases hv
    exact .nil
  | cons i rest ih =>
    simp only [List.mapM_cons, Option.bind_eq_bind, Option.bind_eq_some_iff, Option.pure_def,
      Option.some.injEq] at hu hv
    obtain ⟨u, hxi, us, hus, rfl⟩ := hu
    obtain ⟨w, hyi, vs, hvs, rfl⟩ := hv
    obtain ⟨hi, rfl⟩ := List.getElem?_eq_some_iff.1 hxi
    obtain ⟨hj, rfl⟩ := List.getElem?_eq_some_iff.1 hyi
    exact .cons (h.get hi hj) (ih hus hvs)

namespace Arena

variable {a a₁ a' a₁' b c : Arena} {p : Policy} {s : Step} {us vs : List NodeId} {m n : NodeId}

/-- Nodes that one step makes at different times are twins ever after, if their operands are. -/
theorem twins_of_push (hpush : a.push s.op s.ty us s.flags = (.ok m, a₁))
    (hpush' : a'.push s.op s.ty vs s.flags = (.ok n, a₁')) (hbefore : a₁.Precedes a')
    (hc : a₁'.Precedes c) (hpure : s.flags.contains .sideEffects = false)
    (hops : List.Forall₂ (View.mk c p).Twins us vs) : (View.mk c p).Twins m n := by
  by_cases hk : s.op.kind = .constant
  · -- a literal is pushed only once
    obtain ⟨l, hl⟩ := Op.kind_eq_constant_iff.1 hk
    rw [hl] at hpush hpush'
    rw [eq_of_push_literal (hbefore.literal (literal_of_push hpush)) hpush']
    exact .refl m
  · have hfirst : a₁.Extends c := ((hbefore.trans (precedes_of_push hpush')).trans hc).grown
    obtain ⟨-, span, hm, hus⟩ := node?_of_push hk hpush
    obtain ⟨-, span', hn, hvs⟩ := node?_of_push hk hpush'
    have heff : ∀ span, (View.mk c p).hasEffects ⟨s.op, s.ty, s.flags, span⟩ = false := by
      intro span
      simp [View.hasEffects, hpure]
    refine View.twins_of_nodes (hfirst.node? hm) (hc.grown.node? hn) hk rfl rfl (heff span)
      (heff span') ?_
    have hx : (View.mk c p).arena.operands m = us :=
      (hfirst.operands_eq (index_lt_of_node hm)).trans hus
    have hy : (View.mk c p).arena.operands n = vs :=
      (hc.grown.operands_eq (index_lt_of_node hn)).trans hvs
    rw [hx, hy]
    exact hops

/-- A script without side effects makes twins, if it is built again after twins. -/
theorem Builds.twins {xs ys first second : List NodeId} {script : List Step}
    (h : Builds a xs script first b) (h' : Builds a' ys script second c) (hbefore : b.Precedes a')
    (hpure : ∀ s ∈ script, s.flags.contains .sideEffects = false)
    (hxy : List.Forall₂ (View.mk c p).Twins xs ys) :
    List.Forall₂ (View.mk c p).Twins first second := by
  induction h generalizing a' ys second with
  | nil a built =>
    cases h'
    exact .nil
  | cons hops hpush hrest ih =>
    cases h' with
    | cons hops' hpush' hrest' =>
      obtain ⟨hs, hpure⟩ := List.forall_mem_cons.1 hpure
      have hgrown := precedes_of_push hpush'
      have hnew := twins_of_push hpush hpush' (hrest.precedes.trans hbefore) hrest'.precedes hs
        (forall₂_of_mapM_getElem? hxy hops hops')
      refine .cons hnew (ih hrest' (hbefore.trans hgrown) hpure ?_)
      exact List.rel_append hxy (.cons hnew .nil)

end Arena

/-! ### Numbering both copies -/

/-- The keys of the nodes that a script made and that produce values. -/
def scriptKeys (script : List Step) (nodes : List NodeId) : List Key :=
  (script.zip nodes).filterMap fun e =>
    if e.1.op.producesValue then some ⟨e.2, e.1.deps⟩ else none

theorem scriptKeys_cons (s : Step) (script : List Step) (n : NodeId) (nodes : List NodeId) :
    scriptKeys (s :: script) (n :: nodes) =
      if s.op.producesValue then ⟨n, s.deps⟩ :: scriptKeys script nodes
      else scriptKeys script nodes := by
  simp only [scriptKeys, List.zip_cons_cons, List.filterMap_cons]
  split <;> simp_all

section

variable {v : View} {script : List Step} {nodes : List NodeId}

theorem valued_of_mem_scriptKeys (h : List.Forall₂ v.MadeBy script nodes) :
    ∀ key ∈ scriptKeys script nodes, v.Valued key.node := by
  induction h with
  | nil => simp [scriptKeys]
  | @cons s n script nodes hn _ ih =>
    rw [scriptKeys_cons]
    split
    next hs =>
      obtain ⟨q, hq, hop⟩ := hn
      exact List.forall_mem_cons.2 ⟨⟨q, hq, hop ▸ hs⟩, ih⟩
    next => exact ih

theorem unknown_scriptKeys_le (h : List.Forall₂ v.MadeBy script nodes) :
    Ledger.unknown [] v (scriptKeys script nodes) ≤ newNodes script := by
  induction h with
  | nil => exact Nat.le_refl _
  | @cons s n script nodes hn _ ih =>
    obtain ⟨q, hq, hop⟩ := hn
    rw [scriptKeys_cons, newNodes_cons]
    split
    next =>
      rw [Ledger.unknown_cons]
      by_cases hc : s.op.kind = .constant
      · have hconst : v.isConstant n := (View.isConstant_iff hq).2 (hop ▸ hc)
        rw [Ledger.value?_of_constant hconst, if_pos hc]
        exact ih
      · rw [if_neg hc]
        split <;> omega
    next => exact Nat.le_add_right_of_le ih

/-- The keys of twins have the same values. -/
theorem map_value?_scriptKeys {first second : List NodeId} (h : List.Forall₂ v.Twins first second)
    (l : Ledger) (script : List Step) :
    (scriptKeys script first).map (l.value? v) = (scriptKeys script second).map (l.value? v) := by
  induction h generalizing script with
  | nil => rfl
  | @cons x y first second hxy _ ih =>
    cases script with
    | nil => rfl
    | cons s script =>
      simp only [scriptKeys_cons]
      split
      next => rw [List.map_cons, List.map_cons, hxy.value?_eq, ih]
      next => exact ih script

end

namespace Pass

/-- Build a script without side effects twice, and let a new session number what produces values,
first in one copy and then in the other. Then the nodes of each step are equal, the session gives
them the same value, and for the second copy it allocates nothing. -/
theorem twins_share_values {a b c : Arena} {script : List Step} {first second : List NodeId}
    (ha : a.Reachable) (hpure : ∀ s ∈ script, s.flags.contains .sideEffects = false)
    (hfirst : a.build script = some (first, b)) (hsecond : b.build script = some (second, c))
    (p : Policy) (settings : Settings) :
    let firstPass := (start c settings).run p ((scriptKeys script first).map .number)
    let secondPass := firstPass.2.run p ((scriptKeys script second).map .number)
    first.length = script.length ∧
      List.Forall₂ (fun x y => (View.mk c p).equal x y = .ok true) first second ∧
      (∃ values : List Value,
        firstPass.1.map (·.answer) = values.map (fun x => .value (.ok x)) ∧
        secondPass.1.map (·.answer) = values.map (fun x => .value (.ok x))) ∧
      secondPass.2.session.allocated = firstPass.2.session.allocated := by
  intro firstPass secondPass
  have hb₁ := Arena.builds_of_buildOn hfirst
  have hb₂ := Arena.builds_of_buildOn hsecond
  have hb : b.Reachable := hb₁.reachable ha
  have htwins : List.Forall₂ (View.mk c p).Twins first second :=
    hb₁.twins hb₂ (.refl b) hpure .nil
  have hmade₁ := hb₁.madeBy ha hb₂.precedes.grown p
  have hmade₂ := hb₂.madeBy hb (.refl c) p
  -- the first copy has a node for every value that it needs
  have hleft : 0 + Ledger.unknown [] (View.mk c p) (scriptKeys script first) ≤ identLimit := by
    have hneed := unknown_scriptKeys_le hmade₁
    have hsize := hb₁.size_le
    have hlimit := hb.size_le
    omega
  obtain ⟨l, values, h₁⟩ := run_numbers (w := start c settings) (p := p)
    (Session.tracks_start settings _) (valued_of_mem_scriptKeys hmade₁) hleft
  have hview : firstPass.2.view p = ⟨c, p⟩ := congrArg (View.mk · p) h₁.arena_eq
  have htracks : firstPass.2.session.Tracks (firstPass.2.view p) l := by
    rw [hview]
    exact h₁.tracks
  have hvalued : ∀ key ∈ scriptKeys script second, (firstPass.2.view p).Valued key.node := by
    rw [hview]
    exact valued_of_mem_scriptKeys hmade₂
  have hsame := map_value?_scriptKeys htwins l script
  obtain ⟨hanswers, hallocated⟩ := run_known htracks hvalued
    (Nat.le_trans h₁.allocated_le hleft) (by rw [hview, ← hsame]; exact h₁.values_eq)
  refine ⟨hb₁.length_eq, ?_, ⟨values, h₁.answers_eq, hanswers⟩, hallocated⟩
  exact htwins.imp fun x y h => View.equal_eq_true_iff.2 h.sameTree

/-- An arena with a literal, in which the type `⟨21⟩` may stand for `⟨20⟩` and for `⟨22⟩`, but these
may not stand for each other. -/
def chainedTypes : Arena :=
  let a := (Arena.empty.edit (.declare ⟨20⟩ ⟨21⟩)).2
  let b := (a.edit (.declare ⟨21⟩ ⟨22⟩)).2
  (b.edit (.push (.lit (.int 5)) .int [] .empty)).2

/-- Three loads from one address, one for each of the types, the literal, a sum that uses it, and an
assignment of the sum. -/
def loadsAndSum : List Step :=
  [⟨.var ⟨1⟩ 0, .pointer, [], .empty, []⟩, ⟨.load, ⟨20⟩, [0], .empty, [⟨3⟩]⟩,
    ⟨.load, ⟨22⟩, [0], .mayTrap, [⟨3⟩]⟩, ⟨.load, ⟨21⟩, [0], .empty, [⟨3⟩]⟩,
    ⟨.lit (.int 5), .int, [], .empty, []⟩, ⟨.binary .add, ⟨21⟩, [3, 4], .empty, [⟨3⟩]⟩,
    ⟨.assign, .void, [0, 5], .empty, []⟩]

/-- The second copy has new nodes for all but the literal. Its third load equals the first two loads
of either copy, and shares the value of its twin. -/
theorem loadsAndSum_share_values :
    chainedTypes.Reachable ∧ (∀ s ∈ loadsAndSum, s.flags.contains .sideEffects = false) ∧
      ∃ b c,
        chainedTypes.build loadsAndSum = some ([⟨1⟩, ⟨2⟩, ⟨3⟩, ⟨4⟩, ⟨0⟩, ⟨5⟩, ⟨6⟩], b) ∧
        b.build loadsAndSum = some ([⟨7⟩, ⟨8⟩, ⟨9⟩, ⟨10⟩, ⟨0⟩, ⟨11⟩, ⟨12⟩], c) ∧
        let firstPass := (start c .standard).run .full
          ([⟨⟨1⟩, []⟩, ⟨⟨2⟩, [⟨3⟩]⟩, ⟨⟨3⟩, [⟨3⟩]⟩, ⟨⟨4⟩, [⟨3⟩]⟩, ⟨⟨0⟩, []⟩,
            ⟨⟨5⟩, [⟨3⟩]⟩].map .number)
        let secondPass := firstPass.2.run .full
          ([⟨⟨7⟩, []⟩, ⟨⟨8⟩, [⟨3⟩]⟩, ⟨⟨9⟩, [⟨3⟩]⟩, ⟨⟨10⟩, [⟨3⟩]⟩, ⟨⟨0⟩, []⟩,
            ⟨⟨11⟩, [⟨3⟩]⟩].map .number)
        let values : List Value :=
          [.handle ⟨0⟩, .handle ⟨1⟩, .handle ⟨2⟩, .handle ⟨1⟩, .const ⟨0⟩, .handle ⟨3⟩]
        (View.mk c .full).equal ⟨6⟩ ⟨12⟩ = .ok true ∧
          firstPass.1.map (·.answer) = values.map (fun x => .value (.ok x)) ∧
          secondPass.1.map (·.answer) = values.map (fun x => .value (.ok x)) ∧
          secondPass.2.session.allocated = firstPass.2.session.allocated := by
  have ha : chainedTypes.Reachable := ((Arena.Reachable.empty.edit _).edit _).edit _
  have hpure : ∀ s ∈ loadsAndSum, s.flags.contains .sideEffects = false := by decide +kernel
  have hbuild : ((chainedTypes.build loadsAndSum).bind fun r =>
      (r.2.build loadsAndSum).map fun r' => (r.1, r'.1)) =
      some ([⟨1⟩, ⟨2⟩, ⟨3⟩, ⟨4⟩, ⟨0⟩, ⟨5⟩, ⟨6⟩], [⟨7⟩, ⟨8⟩, ⟨9⟩, ⟨10⟩, ⟨0⟩, ⟨11⟩, ⟨12⟩]) := by
    decide +kernel
  obtain ⟨⟨first, b⟩, hfirst, hrest⟩ := Option.bind_eq_some_iff.1 hbuild
  obtain ⟨⟨second, c⟩, hsecond, heq⟩ := Option.map_eq_some_iff.1 hrest
  cases heq
  obtain ⟨-, hequal, ⟨values, hanswers, hanswers'⟩, hallocated⟩ :=
    twins_share_values ha hpure hfirst hsecond .full .standard
  have hvalues : ((chainedTypes.build loadsAndSum).bind fun r =>
      (r.2.build loadsAndSum).map fun r' =>
        ((start r'.2 .standard).run .full
          ((scriptKeys loadsAndSum r.1).map .number)).1.map (·.answer)) =
      some ([.handle ⟨0⟩, .handle ⟨1⟩, .handle ⟨2⟩, .handle ⟨1⟩, .const ⟨0⟩, .handle ⟨3⟩].map
        fun x => .value (.ok x)) := by
    decide +kernel
  simp only [hfirst, hsecond, Option.bind_some, Option.map_some, Option.some.injEq] at hvalues
  refine ⟨ha, hpure, b, c, hfirst, hsecond, ?_, hvalues, ?_, hallocated⟩
  · exact hequal.get (i := 6) (by simp) (by simp)
  · -- the second copy is answered as the first one was
    exact hanswers'.trans (hanswers.symm.trans hvalues)

end Pass

end ValueNumbering
