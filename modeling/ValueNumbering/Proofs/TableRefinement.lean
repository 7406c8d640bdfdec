import ValueNumbering.Proofs.Ledger

/-!
# A table answers like a ledger

A table groups its entries by hash, may remember hashes, and counts its entries by hand. None of
this can be seen from outside: `table_replies_eq_ledger` says that every sequence of requests, with
nodes pushed and types declared in between, gets the replies that a flat list of entries would give.
A reply has the answer and the number of entries at that point.

* `Store` is what tables and ledgers have in common, `Store.replies` runs a sequence of requests;
* `Store.Simulates` is a relation between the states of two stores that their operations keep, and
  `Store.Simulates.replies_eq` the induction over requests;
* for a table and a ledger the relation is `Table.Holds`.

Two ledgers agree whenever their policies compare keys alike, so a table whose hashes read only the
shape of expressions, with its crowded buckets, answers like any other.
-/

namespace ValueNumbering

/-! ### Stores -/

/-- A collection of values by key. -/
structure Store (σ : Type) where
  /-- The value of a key. -/
  find : View → Key → σ → Except Fault (Option Value) × σ
  /-- Gives a key a value, and returns the entry that had to go. -/
  insert : View → Key → Value → σ → Except Fault (Option (Key × Value)) × σ
  /-- The number of entries. -/
  size : σ → Nat

def Table.store : Store Table where
  find v key t := t.find v key
  insert v key value t :=
    ((t.insert v key value).1.map (Option.map fun e => (e.key, e.value)),
      (t.insert v key value).2)
  size := Table.size

/-- A ledger refuses the keys that have no hash, although it does not hash them. -/
def Ledger.store : Store Ledger where
  find v key l :=
    match v.hashFault? key.node with
    | some fault => (.error fault, l)
    | none => (.ok (l.find v key), l)
  insert v key value l :=
    match v.hashFault? key.node with
    | some fault => (.error fault, l)
    | none => (.ok (l.entry? v key), l.put v key value)
  size := List.length

/-- A request to a store, or a change of the arena. -/
inductive StoreRequest
  | edit (e : Edit)
  | find (key : Key)
  | insert (key : Key) (value : Value)
deriving DecidableEq, Repr

inductive StoreAnswer
  | edited (result : Except Fault (Option NodeId))
  | found (result : Except Fault (Option Value))
  | inserted (result : Except Fault (Option (Key × Value)))

/-- The answer to a request, and the number of entries then. -/
structure StoreReply where
  answer : StoreAnswer
  size : Nat

namespace Store

variable {σ τ : Type}

/-- Serves a request on an arena that is seen under a policy. -/
def serve (S : Store σ) (p : Policy) (a : Arena) (s : σ) : StoreRequest → StoreReply × Arena × σ
  | .edit e => (⟨.edited (a.edit e).1, S.size s⟩, (a.edit e).2, s)
  | .find key =>
    let (result, s) := S.find ⟨a, p⟩ key s
    (⟨.found result, S.size s⟩, a, s)
  | .insert key value =>
    let (result, s) := S.insert ⟨a, p⟩ key value s
    (⟨.inserted result, S.size s⟩, a, s)

/-- The replies to a sequence of requests. -/
def replies (S : Store σ) (p : Policy) (a : Arena) (s : σ) : List StoreRequest → List StoreReply
  | [] => []
  | r :: rest =>
    let (reply, a, s) := S.serve p a s r
    reply :: S.replies p a s rest

/-! ### Simulation -/

/-- Related states of two stores give the same results and lead to related states. -/
structure Simulates (S : Store σ) (p : Policy) (T : Store τ) (q : Policy)
    (R : Arena → σ → τ → Prop) : Prop where
  find : ∀ {a s t}, R a s t → ∀ key,
    (S.find ⟨a, p⟩ key s).1 = (T.find ⟨a, q⟩ key t).1 ∧
      R a (S.find ⟨a, p⟩ key s).2 (T.find ⟨a, q⟩ key t).2
  insert : ∀ {a s t}, R a s t → ∀ key value,
    (S.insert ⟨a, p⟩ key value s).1 = (T.insert ⟨a, q⟩ key value t).1 ∧
      R a (S.insert ⟨a, p⟩ key value s).2 (T.insert ⟨a, q⟩ key value t).2
  size : ∀ {a s t}, R a s t → S.size s = T.size t
  extend : ∀ {a b s t}, a.Extends b → R a s t → R b s t

variable {S : Store σ} {T : Store τ} {p q : Policy} {R : Arena → σ → τ → Prop}

theorem Simulates.serve_eq (h : S.Simulates p T q R) {a : Arena} {s : σ} {t : τ} (hR : R a s t)
    (r : StoreRequest) :
    ∃ reply b s' t', S.serve p a s r = (reply, b, s') ∧ T.serve q a t r = (reply, b, t') ∧
      R b s' t' := by
  cases r with
  | edit e =>
    refine ⟨_, _, s, t, rfl, ?_, h.extend (a.extends_edit e) hR⟩
    simp only [serve, h.size hR]
  | find key =>
    obtain ⟨hr, hR'⟩ := h.find hR key
    refine ⟨_, a, _, _, rfl, ?_, hR'⟩
    simp only [serve, hr, h.size hR']
  | insert key value =>
    obtain ⟨hr, hR'⟩ := h.insert hR key value
    refine ⟨_, a, _, _, rfl, ?_, hR'⟩
    simp only [serve, hr, h.size hR']

theorem Simulates.replies_eq (h : S.Simulates p T q R) {a : Arena} {s : σ} {t : τ}
    (hR : R a s t) (requests : List StoreRequest) :
    S.replies p a s requests = T.replies q a t requests := by
  induction requests generalizing a s t with
  | nil => rfl
  | cons r rest ih =>
    obtain ⟨reply, b, s', t', hs, ht, hR'⟩ := h.serve_eq hR r
    rw [replies, replies, hs, ht]
    exact congrArg (reply :: ·) (ih hR')

end Store

/-! ### Tables and ledgers -/

theorem table_simulates_ledger (p : Policy) :
    Table.store.Simulates p Ledger.store p fun a t l => t.Holds ⟨a, p⟩ l := by
  constructor
  case find =>
    intro a t l h key
    cases hk : (View.mk a p).hashFault? key.node with
    | some fault =>
      simp only [Table.store, Ledger.store, h.find_fault hk, hk, true_and]
      exact h
    | none =>
      obtain ⟨t', ht, h'⟩ := h.find_eq hk
      simp only [Table.store, Ledger.store, ht, hk, true_and]
      exact h'
  case insert =>
    intro a t l h key value
    cases hk : (View.mk a p).hashFault? key.node with
    | some fault =>
      simp only [Table.store, Ledger.store, h.insert_fault hk, hk]
      exact ⟨rfl, h⟩
    | none =>
      obtain ⟨t', ht, h'⟩ := h.insert_eq hk value
      simp only [Table.store, Ledger.store, ht, hk]
      refine ⟨?_, h'⟩
      -- the entry of a table is that of the ledger with its hash
      cases l.entry? ⟨a, p⟩ key <;> rfl
  case size =>
    intro a t l h
    exact h.size_eq
  case extend =>
    intro a b t l hab h
    exact h.extend hab

/-- Policies that heed the same things compare nodes alike, whatever their hashes read. -/
theorem View.sameTree_congr_policy {a : Arena} {p q : Policy}
    (he : p.heedsEffects = q.heedsEffects) (ha : p.heedsAliases = q.heedsAliases) (x y : NodeId) :
    (View.mk a p).sameTree x y = (View.mk a q).sameTree x y := by
  refine sameTree_congr (P := fun _ => True) ?_ ?_ ?_ trivial trivial
  · intro n _ o _
    trivial
  · intro n _
    rfl
  · intro x y _ _
    simp only [agree, hasEffects, interchangeable, he, ha]

theorem ledger_simulates_ledger {p q : Policy} (he : p.heedsEffects = q.heedsEffects)
    (ha : p.heedsAliases = q.heedsAliases) :
    Ledger.store.Simulates p Ledger.store q fun _ l m => l = m := by
  have hkey : ∀ a k l, (View.mk a p).sameKey k l = (View.mk a q).sameKey k l := by
    intro a k l
    rw [Bool.eq_iff_iff, View.sameKey_iff, View.sameKey_iff, View.sameTree_congr_policy he ha]
  have hentry : ∀ (l : Ledger) a key, l.entry? ⟨a, p⟩ key = l.entry? ⟨a, q⟩ key := by
    intro l a key
    simp only [Ledger.entry?, hkey]
  constructor
  case find =>
    rintro a l _ rfl key
    simp only [Ledger.store, Ledger.find, hentry]
    exact ⟨rfl, rfl⟩
  case insert =>
    rintro a l _ rfl key value
    simp only [Ledger.store, hentry, Ledger.put, hkey]
    exact ⟨rfl, rfl⟩
  case size =>
    rintro a l _ rfl
    rfl
  case extend =>
    intro a b l m _ h
    exact h

/-- A table gives every sequence of requests the replies of a flat list that is searched from the
front. In particular, hashes that read only the shape of expressions change no reply. -/
theorem table_replies_eq_ledger (a : Arena) (requests : List StoreRequest) :
    (∀ p settings, Table.store.replies p a (.empty settings) requests =
        Ledger.store.replies p a [] requests) ∧
      ∀ settings settings', Table.store.replies .full a (.empty settings) requests =
        Table.store.replies .shapeHash a (.empty settings') requests := by
  have hflat : ∀ p settings, Table.store.replies p a (.empty settings) requests =
      Ledger.store.replies p a [] requests := by
    intro p settings
    exact (table_simulates_ledger p).replies_eq (Table.holds_empty settings _) requests
  refine ⟨hflat, fun settings settings' => ?_⟩
  rw [hflat, hflat]
  have hsim : Ledger.store.Simulates .full Ledger.store .shapeHash fun _ l m => l = m :=
    ledger_simulates_ledger rfl rfl
  exact hsim.replies_eq rfl requests

end ValueNumbering
