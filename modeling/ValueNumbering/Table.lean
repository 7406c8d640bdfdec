import ValueNumbering.Equality.Basic
import ValueNumbering.Settings

/-!
# Value tables

A table holds the value of each key that was put into it. Keys are compared by `View.equalKeys`, so
one entry answers for every key that is equal to its own. Entries are grouped by the hash of their
key; within a group they stand in the order of insertion, and the first entry with an equal key is
the one that counts.

A table can also remember the hashes of nodes. Looking something up then changes what it remembers,
and nothing else.
-/

namespace ValueNumbering

/-- A key, its value, and the hash of the key. -/
structure Entry where
  key : Key
  value : Value
  hash : UInt64
deriving DecidableEq, Repr

/-- Values by key. -/
structure Table where
  /-- The entries, by the hash of their key. -/
  buckets : Std.TreeMap UInt64 (List Entry)
  /-- The number of entries. -/
  size : Nat
  /-- The hashes that are remembered, if any are to be. -/
  memo : Option HashMemo

namespace Table

/-- The table without entries. -/
def empty (settings : Settings) : Table where
  buckets := ∅
  size := 0
  memo := if settings.memoize then some ∅ else none

/-- The number of nodes whose hash is remembered. -/
def remembered (t : Table) : Nat :=
  match t.memo with
  | some memo => memo.size
  | none => 0

/-- All entries, by increasing hash, and in the order of insertion among those of one hash. -/
def entries (t : Table) : List Entry := (t.buckets.toList.map (·.2)).flatten

/-- The entries whose key has the given hash. -/
def bucket (t : Table) (hash : UInt64) : List Entry := t.buckets.getD hash []

/-- The hash of a key, and the table with what it remembers then. -/
def hashKey (t : Table) (v : View) (key : Key) : Except Fault UInt64 × Table :=
  match t.memo with
  | some memo =>
    match v.hashKeyIn memo 0 key with
    | (hash, memo) => (hash, { t with memo := some memo })
  | none => (v.hashKey 0 key, t)

/-- The position of the first entry with a key equal to the given one. -/
def position? (v : View) (key : Key) : List Entry → Except Fault (Option Nat)
  | [] => .ok none
  | e :: rest =>
    match v.equalKeys e.key key with
    | .error fault => .error fault
    | .ok true => .ok (some 0)
    | .ok false =>
      match position? v key rest with
      | .error fault => .error fault
      | .ok found => .ok (found.map (· + 1))

/-- The value of a key. -/
def find (t : Table) (v : View) (key : Key) : Except Fault (Option Value) × Table :=
  match t.hashKey v key with
  | (.error fault, t) => (.error fault, t)
  | (.ok hash, t) =>
    match position? v key (t.bucket hash) with
    | .error fault => (.error fault, t)
    | .ok found => (.ok (found.bind fun i => (t.bucket hash)[i]?.map (·.value)), t)

/-- Gives a key a value. The first entry with an equal key is replaced and returned; otherwise a
new entry is added. -/
def insert (t : Table) (v : View) (key : Key) (value : Value) :
    Except Fault (Option Entry) × Table :=
  match t.hashKey v key with
  | (.error fault, t) => (.error fault, t)
  | (.ok hash, t) =>
    let entry : Entry := ⟨key, value, hash⟩
    let bucket := t.bucket hash
    match position? v key bucket with
    | .error fault => (.error fault, t)
    | .ok (some i) =>
      (.ok bucket[i]?, { t with buckets := t.buckets.insert hash (bucket.set i entry) })
    | .ok none =>
      (.ok none, { t with
        buckets := t.buckets.insert hash (bucket ++ [entry])
        size := t.size + 1 })

end Table

end ValueNumbering
