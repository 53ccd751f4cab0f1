import PaymentsPlatform.Collections.OrderedDict

/-!
# The response cache

`api/src/cache.py`: a bounded LRU all of whose entries belong to one snapshot id. The
lock makes each method one step.
-/

namespace PaymentsPlatform.Api

/-- The entries, least recently used first, and the snapshot they were put under. -/
structure SnapshotCache (α : Type) where
  entries : OrderedDict String α
  snapshotId : Option String
  maxEntries : Nat
  hits : Nat
  misses : Nat
  evictions : Nat

namespace SnapshotCache

variable {α : Type}

def empty (maxEntries : Nat) : SnapshotCache α where
  entries := .empty
  snapshotId := none
  maxEntries := maxEntries
  hits := 0
  misses := 0
  evictions := 0

/-- A new snapshot starts without entries. -/
def reset (c : SnapshotCache α) (snapshotId : Option String) : SnapshotCache α :=
  { c with entries := .empty, snapshotId := snapshotId }

def get (c : SnapshotCache α) (snapshotId : Option String) (key : String) :
    Option α × SnapshotCache α :=
  if snapshotId ≠ c.snapshotId then
    (none, { c.reset snapshotId with misses := c.misses + 1 })
  else
    match c.entries.get? key with
    | none => (none, { c with misses := c.misses + 1 })
    | some value => (some value, { c with entries := c.entries.moveToEnd key, hits := c.hits + 1 })

/-- The loop of `put` that makes room, as often as there are entries at most. -/
def evict (c : SnapshotCache α) : Nat → SnapshotCache α
  | 0 => c
  | n + 1 =>
      if c.maxEntries < c.entries.length then
        evict { c with entries := c.entries.popFirst, evictions := c.evictions + 1 } n
      else c

def put (c : SnapshotCache α) (snapshotId : Option String) (key : String) (value : α) :
    SnapshotCache α :=
  let c := if snapshotId ≠ c.snapshotId then c.reset snapshotId else c
  let c := { c with entries := (c.entries.setItem key value).moveToEnd key }
  c.evict c.entries.length

def clear (c : SnapshotCache α) : SnapshotCache α := c.reset none

variable {c : SnapshotCache α} {snapshotId : Option String} {key k : String} {value v : α}

theorem snapshotId_evict (c : SnapshotCache α) (n : Nat) :
    (c.evict n).snapshotId = c.snapshotId := by
  induction n generalizing c with
  | zero => rfl
  | succ n ih =>
      rw [evict]
      split
      · exact ih _
      · rfl

theorem mem_evict {n : Nat} (h : (k, v) ∈ (c.evict n).entries.entries) :
    (k, v) ∈ c.entries.entries := by
  induction n generalizing c with
  | zero => exact h
  | succ n ih =>
      rw [evict] at h
      split at h
      · exact OrderedDict.mem_popFirst (ih h)
      · exact h

/-- What a lookup finds was put under the snapshot it asks for. -/
theorem get_some (h : (c.get snapshotId key).1 = some value) :
    snapshotId = c.snapshotId ∧ (key, value) ∈ c.entries.entries := by
  unfold get at h
  split at h
  · cases h
  · rename_i same
    refine ⟨not_not.mp same, ?_⟩
    cases hfound : c.entries.get? key with
    | none => rw [hfound] at h; cases h
    | some found =>
        rw [hfound] at h
        exact OrderedDict.mem_entries_of_get? (hfound.trans h)

/-- After a lookup the cache is scoped to the snapshot, and has only entries it had. -/
theorem snapshotId_get (c : SnapshotCache α) (snapshotId : Option String) (key : String) :
    (c.get snapshotId key).2.snapshotId = snapshotId := by
  unfold get
  split
  · rfl
  · rename_i same
    split <;> exact (not_not.mp same).symm

theorem mem_get (h : (k, v) ∈ (c.get snapshotId key).2.entries.entries) :
    snapshotId = c.snapshotId ∧ (k, v) ∈ c.entries.entries := by
  unfold get at h
  split at h
  · cases h
  · rename_i same
    refine ⟨not_not.mp same, ?_⟩
    split at h
    · exact h
    · exact OrderedDict.mem_moveToEnd.mp h

/-- So does a put, apart from its own entry. -/
theorem snapshotId_put (c : SnapshotCache α) (snapshotId : Option String) (key : String)
    (value : α) :
    (c.put snapshotId key value).snapshotId = snapshotId := by
  simp only [put, snapshotId_evict]
  split
  · rfl
  · rename_i same
    exact (not_not.mp same).symm

theorem mem_put (h : (k, v) ∈ (c.put snapshotId key value).entries.entries) :
    (k, v) = (key, value) ∨ snapshotId = c.snapshotId ∧ (k, v) ∈ c.entries.entries := by
  have h := OrderedDict.mem_setItem (OrderedDict.mem_moveToEnd.mp (mem_evict h))
  refine h.imp_right fun hold => ?_
  split at hold
  · cases hold
  · rename_i same
    exact ⟨not_not.mp same, hold⟩

end SnapshotCache

end PaymentsPlatform.Api
