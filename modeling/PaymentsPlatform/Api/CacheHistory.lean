import PaymentsPlatform.Api.Cache
import PaymentsPlatform.Collections.Recency
import PaymentsPlatform.Machine.Run

/-!
# The cache by its history

What `SnapshotCache` is for, told from the calls alone: a call with another snapshot id, or
`clear`, starts an episode, and the cache holds the keys that were used most recently in
the current one, each with the value that was put there last. A put uses its key, and so
does a lookup that finds it. The code keeps a dictionary in the order of the last use
(`cache_refines`).
-/

namespace PaymentsPlatform.Api

inductive CacheCall (α : Type) where
  | get (snapshotId : Option String) (key : String)
  | put (snapshotId : Option String) (key : String) (value : α)
  | clear

variable {α : Type}

namespace SnapshotCache

/-- The cache after a call. -/
def call (c : SnapshotCache α) : CacheCall α → SnapshotCache α
  | .get snapshotId key => (c.get snapshotId key).2
  | .put snapshotId key value => c.put snapshotId key value
  | .clear => c.clear

/-- The cache once a call has opened its scope. -/
def opened (c : SnapshotCache α) (snapshotId : Option String) : SnapshotCache α :=
  if snapshotId ≠ c.snapshotId then c.reset snapshotId else c

/-- The cache after an assignment, before room is made. -/
def placed (c : SnapshotCache α) (key : String) (value : α) : SnapshotCache α :=
  { c with entries := (c.entries.setItem key value).moveToEnd key }

theorem put_eq (c : SnapshotCache α) (snapshotId : Option String) (key : String) (value : α) :
    c.put snapshotId key value =
      ((c.opened snapshotId).placed key value).evict
        ((c.opened snapshotId).placed key value).entries.length := rfl

end SnapshotCache

/-- The scope that some calls leave; the newest call comes first. -/
def scopeAfter : List (CacheCall α) → Option String
  | [] => none
  | .get snapshotId _ :: _ => snapshotId
  | .put snapshotId _ _ :: _ => snapshotId
  | .clear :: _ => none

/-- The calls since the scope last changed. -/
def episode : List (CacheCall α) → List (CacheCall α)
  | [] => []
  | .get snapshotId key :: older =>
      .get snapshotId key :: (if snapshotId = scopeAfter older then episode older else [])
  | .put snapshotId key value :: older =>
      .put snapshotId key value :: (if snapshotId = scopeAfter older then episode older else [])
  | .clear :: _ => []

/-- The keys that the calls of an episode use. -/
def usedKeys (capacity : Nat) : List (CacheCall α) → List String
  | [] => []
  | .get _ key :: older =>
      if key ∈ (usedKeys capacity older).eraseDups.take capacity then
        key :: usedKeys capacity older
      else usedKeys capacity older
  | .put _ key _ :: older => key :: usedKeys capacity older
  | .clear :: older => usedKeys capacity older

/-- The most recently used keys of an episode. -/
def recentKeys (capacity : Nat) (calls : List (CacheCall α)) : List String :=
  (usedKeys capacity calls).eraseDups.take capacity

/-- What was put for a key last. -/
def lastPut (key : String) : List (CacheCall α) → Option α
  | [] => none
  | .put _ key' value :: older => if key' = key then some value else lastPut key older
  | .get _ _ :: older => lastPut key older
  | .clear :: older => lastPut key older

def isGet : CacheCall α → Bool
  | .get _ _ => true
  | _ => false

/-- The entries are those of the most recently used keys of an episode. -/
structure Holds (capacity : Nat) (calls : List (CacheCall α)) (d : OrderedDict String α) :
    Prop where
  keys : (d.entries.map Prod.fst).reverse = recentKeys capacity calls
  values : ∀ e ∈ d.entries, lastPut e.1 calls = some e.2

/-- A cache is what its history says. -/
structure Refines (capacity : Nat) (history : List (CacheCall α)) (c : SnapshotCache α) :
    Prop where
  bound : c.maxEntries = capacity
  scope : c.snapshotId = scopeAfter history
  entries : Holds capacity (episode history) c.entries
  counted : c.hits + c.misses = history.countP isGet

/-- The calls of the current episode that a call with a snapshot id continues. -/
def continued (snapshotId : Option String) (history : List (CacheCall α)) : List (CacheCall α) :=
  if snapshotId = scopeAfter history then episode history else []

/-- How many keys are among the most recent ones before a put, or are its own, and are not
afterwards. -/
def pushedOut (capacity : Nat) (history : List (CacheCall α)) (snapshotId : Option String)
    (key : String) (value : α) : Nat :=
  (key :: (recentKeys capacity (continued snapshotId history)).filter (· ≠ key)).countP
    (· ∉ recentKeys capacity (episode (.put snapshotId key value :: history)))

variable {capacity : Nat} {calls history : List (CacheCall α)} {d : OrderedDict String α}
variable {c : SnapshotCache α} {snapshotId : Option String} {key k : String} {value v : α}

section Entries

theorem length_recentKeys (capacity : Nat) (calls : List (CacheCall α)) :
    (recentKeys capacity calls).length ≤ capacity := List.length_take_le _ _

/-- A use of a key. -/
theorem recentKeys_use (capacity : Nat) (used : List String) (key : String) :
    ((key :: used).eraseDups).take capacity =
      (key :: (used.eraseDups.take capacity).filter (· ≠ key)).take capacity := by
  rw [Recency.eraseDups_cons, Recency.take_move (Recency.nodup_eraseDups used)]

theorem recentKeys_put : recentKeys capacity (.put snapshotId key value :: calls) =
    (key :: (recentKeys capacity calls).filter (· ≠ key)).take capacity :=
  recentKeys_use capacity _ key

theorem usedKeys_get : usedKeys capacity (.get snapshotId key :: calls) =
    if key ∈ recentKeys capacity calls then key :: usedKeys capacity calls
    else usedKeys capacity calls := rfl

theorem recentKeys_get (found : key ∈ recentKeys capacity calls) :
    recentKeys capacity (.get snapshotId key :: calls) =
      (key :: (recentKeys capacity calls).filter (· ≠ key)).take capacity := by
  rw [recentKeys, usedKeys_get, if_pos found]
  exact recentKeys_use capacity _ key

theorem recentKeys_get_of_notMem (absent : key ∉ recentKeys capacity calls) :
    recentKeys capacity (.get snapshotId key :: calls) = recentKeys capacity calls := by
  rw [recentKeys, usedKeys_get, if_neg absent, recentKeys]

theorem holds_empty : Holds capacity ([] : List (CacheCall α)) .empty where
  keys := by
    rw [recentKeys, usedKeys, List.eraseDups_nil, List.take_nil]
    rfl
  values _ h := by cases h

namespace Holds

theorem mem_iff (h : Holds capacity calls d) :
    k ∈ d.entries.map Prod.fst ↔ k ∈ recentKeys capacity calls := by
  rw [← h.keys, List.mem_reverse]

theorem length_le (h : Holds capacity calls d) : d.length ≤ capacity := by
  have bounded := length_recentKeys capacity calls
  rwa [← h.keys, List.length_reverse, List.length_map] at bounded

theorem get?_eq_some (h : Holds capacity calls d) :
    d.get? k = some v ↔ k ∈ recentKeys capacity calls ∧ lastPut k calls = some v := by
  constructor
  · intro found
    have hmem := OrderedDict.mem_entries_of_get? found
    exact ⟨h.mem_iff.mp (List.mem_map_of_mem hmem), h.values _ hmem⟩
  · rintro ⟨hmem, hlast⟩
    obtain ⟨⟨k', v'⟩, he, rfl⟩ := List.mem_map.mp (h.mem_iff.mpr hmem)
    obtain rfl := Option.some.inj ((h.values _ he).symm.trans hlast)
    exact OrderedDict.get?_of_mem he

/-- A key that is looked up becomes the last one. -/
theorem use (h : Holds capacity calls d) (found : (key, value) ∈ d.entries) :
    Holds capacity (.get snapshotId key :: calls) (d.moveToEnd key) := by
  have hmem : key ∈ recentKeys capacity calls := h.mem_iff.mp (List.mem_map_of_mem found)
  constructor
  · have room : ((recentKeys capacity calls).filter (· ≠ key)).length < capacity := by
      refine Nat.lt_of_lt_of_le ?_ (length_recentKeys capacity calls)
      exact List.length_filter_lt_length_iff_exists.mpr ⟨key, hmem, by simp⟩
    rw [OrderedDict.entries_moveToEnd found, recentKeys_get hmem, List.take_of_length_le room,
      ← h.keys, List.filter_reverse, List.filter_map, List.map_append, List.reverse_append]
    rfl
  · rintro ⟨k, v⟩ he
    exact h.values (k, v) (OrderedDict.mem_moveToEnd.mp he)

theorem miss (h : Holds capacity calls d) (absent : d.get? key = none) :
    Holds capacity (.get snapshotId key :: calls) d := by
  have notMem : key ∉ recentKeys capacity calls := by
    intro hmem
    obtain ⟨⟨k, v⟩, he, rfl⟩ := List.mem_map.mp (h.mem_iff.mpr hmem)
    rw [OrderedDict.get?_of_mem he] at absent
    cases absent
  constructor
  · rw [recentKeys_get_of_notMem notMem, h.keys]
  · exact h.values

end Holds

end Entries

section Evictions

/-- What making room does not change. -/
theorem evict_frame (c : SnapshotCache α) (n : Nat) :
    (c.evict n).maxEntries = c.maxEntries ∧ (c.evict n).hits = c.hits ∧
      (c.evict n).misses = c.misses := by
  induction n generalizing c with
  | zero => exact ⟨rfl, rfl, rfl⟩
  | succ n ih =>
      rw [SnapshotCache.evict]
      split
      · exact ih _
      · exact ⟨rfl, rfl, rfl⟩

/-- The entries over the bound leave from the front, and each is counted. -/
theorem evict_eq {n : Nat} (enough : c.entries.length - c.maxEntries ≤ n) :
    (c.evict n).entries.entries = c.entries.entries.drop (c.entries.length - c.maxEntries) ∧
      (c.evict n).evictions = c.evictions + (c.entries.length - c.maxEntries) := by
  induction n generalizing c with
  | zero =>
      rw [Nat.le_zero.mp enough]
      exact ⟨rfl, rfl⟩
  | succ n ih =>
      rw [SnapshotCache.evict]
      split
      · rename_i full
        have shorter : c.entries.popFirst.length = c.entries.length - 1 := List.length_tail
        have excess : c.entries.length - c.maxEntries =
            1 + (c.entries.popFirst.length - c.maxEntries) := by omega
        rw [excess] at enough ⊢
        obtain ⟨entries, evictions⟩ := @ih
          { c with entries := c.entries.popFirst, evictions := c.evictions + 1 }
          (by simp only; omega)
        rw [entries, evictions, ← List.drop_drop, List.drop_one, Nat.add_assoc]
        exact ⟨rfl, rfl⟩
      · rename_i room
        rw [Nat.sub_eq_zero_of_le (Nat.le_of_not_lt room)]
        exact ⟨rfl, rfl⟩

/-- The entries a put leaves before it makes room: its own comes last. -/
theorem Holds.put (h : Holds capacity calls d) :
    (((d.setItem key value).moveToEnd key).entries.map Prod.fst).reverse =
      key :: (recentKeys capacity calls).filter (· ≠ key) := by
  rw [OrderedDict.entries_moveToEnd (OrderedDict.mem_setItem_self d key value),
    OrderedDict.filter_setItem, ← h.keys, List.filter_reverse, List.filter_map, List.map_append,
    List.reverse_append]
  rfl

theorem evictions_evict : (c.evict c.entries.length).evictions =
    c.evictions + (c.entries.length - c.maxEntries) := (evict_eq (Nat.sub_le _ _)).2

theorem Holds.evict (bound : c.maxEntries = capacity)
    (keys : (c.entries.entries.map Prod.fst).reverse =
      key :: (recentKeys capacity calls).filter (· ≠ key))
    (values : ∀ e ∈ c.entries.entries,
      lastPut e.1 (.put snapshotId key value :: calls) = some e.2) :
    Holds capacity (.put snapshotId key value :: calls) (c.evict c.entries.length).entries := by
  obtain ⟨entries, -⟩ := @evict_eq α c c.entries.length (Nat.sub_le _ _)
  constructor
  · have len : (c.entries.entries.map Prod.fst).length = c.entries.length := List.length_map _
    rw [entries, recentKeys_put, ← keys, List.map_drop, List.reverse_drop, len, bound,
      List.take_eq_take_iff, List.length_reverse, len]
    omega
  · intro e he
    rw [entries] at he
    exact values e (List.mem_of_mem_drop he)

end Evictions

section Calls

theorem continued_same (same : snapshotId = scopeAfter history) :
    continued snapshotId history = episode history := if_pos same

theorem continued_other (other : snapshotId ≠ scopeAfter history) :
    continued snapshotId history = [] := if_neg other

theorem episode_put : episode (.put snapshotId key value :: history) =
    .put snapshotId key value :: continued snapshotId history := rfl

theorem Refines.opened (h : Refines capacity history c) (snapshotId : Option String) :
    Holds capacity (continued snapshotId history) (c.opened snapshotId).entries ∧
      (c.opened snapshotId).snapshotId = snapshotId ∧
      (c.opened snapshotId).maxEntries = capacity ∧
      (c.opened snapshotId).hits + (c.opened snapshotId).misses = history.countP isGet ∧
      (c.opened snapshotId).evictions = c.evictions := by
  unfold SnapshotCache.opened
  split
  · rename_i other
    rw [continued_other (h.scope ▸ other)]
    exact ⟨holds_empty, rfl, h.bound, h.counted, rfl⟩
  · rename_i same
    have same := (not_not.mp same)
    rw [continued_same (h.scope ▸ same)]
    exact ⟨h.entries, same.symm, h.bound, h.counted, rfl⟩

/-- The last puts after a put, for the entries it leaves before it makes room. -/
theorem Holds.values_placed (h : Holds capacity calls d) :
    ∀ e ∈ ((d.setItem key value).moveToEnd key).entries,
      lastPut e.1 (.put snapshotId key value :: calls) = some e.2 := by
  rintro ⟨k, v⟩ he
  rw [OrderedDict.entries_moveToEnd (OrderedDict.mem_setItem_self d key value),
    OrderedDict.filter_setItem] at he
  rcases List.mem_append.mp he with hold | hnew
  · obtain ⟨hmem, other⟩ := List.mem_filter.mp hold
    exact (if_neg (Ne.symm (of_decide_eq_true other))).trans (h.values _ hmem)
  · obtain ⟨rfl, rfl⟩ := Prod.mk.inj (List.mem_singleton.mp hnew)
    exact if_pos rfl

theorem Refines.put (h : Refines capacity history c) (snapshotId : Option String) (key : String)
    (value : α) :
    Refines capacity (.put snapshotId key value :: history) (c.put snapshotId key value) := by
  obtain ⟨held, scope, bound, counted, -⟩ := h.opened snapshotId
  rw [SnapshotCache.put_eq]
  obtain ⟨maxEntries, hits, misses⟩ := evict_frame ((c.opened snapshotId).placed key value)
    ((c.opened snapshotId).placed key value).entries.length
  refine ⟨maxEntries.trans bound, ?_, Holds.evict bound held.put held.values_placed, ?_⟩
  · exact (SnapshotCache.snapshotId_evict _ _).trans scope
  · rw [hits, misses, List.countP_cons_of_neg (by simp [isGet])]
    exact counted

/-- A put counts the entries it pushes out. -/
theorem evictions_put (h : Refines capacity history c) (snapshotId : Option String) (key : String)
    (value : α) :
    (c.put snapshotId key value).evictions =
      c.evictions + pushedOut capacity history snapshotId key value := by
  obtain ⟨held, -, bound, -, evictions⟩ := h.opened snapshotId
  have keys : (((c.opened snapshotId).placed key value).entries.entries.map Prod.fst).reverse =
      key :: (recentKeys capacity (continued snapshotId history)).filter (· ≠ key) := held.put
  have nodup := List.nodup_reverse.mpr ((c.opened snapshotId).placed key value).entries.nodup
  have len : ((c.opened snapshotId).placed key value).entries.length =
      (key :: (recentKeys capacity (continued snapshotId history)).filter (· ≠ key)).length := by
    rw [← keys, List.length_reverse, List.length_map]
    rfl
  rw [keys] at nodup
  rw [SnapshotCache.put_eq, evictions_evict, len, pushedOut,
    episode_put, recentKeys_put, Recency.countP_notMem_take nodup, ← bound, ← evictions]
  rfl

theorem Refines.clear (h : Refines capacity history c) :
    Refines capacity (.clear :: history) c.clear := by
  refine ⟨h.bound, rfl, holds_empty, ?_⟩
  rw [List.countP_cons_of_neg (by simp [isGet])]
  exact h.counted

theorem evictions_get (c : SnapshotCache α) (snapshotId : Option String) (key : String) :
    (c.get snapshotId key).2.evictions = c.evictions := by
  unfold SnapshotCache.get
  split
  · rfl
  · split <;> rfl

theorem Refines.get (h : Refines capacity history c) (snapshotId : Option String) (key : String) :
    Refines capacity (.get snapshotId key :: history) (c.get snapshotId key).2 := by
  have counted : history.countP isGet + 1 =
      (CacheCall.get snapshotId key :: history).countP isGet := (List.countP_cons_of_pos rfl).symm
  unfold SnapshotCache.get
  split
  · rename_i other
    rw [h.scope] at other
    refine ⟨h.bound, rfl, ?_, ?_⟩
    · show Holds capacity (.get snapshotId key :: continued snapshotId history) .empty
      rw [continued_other other]
      exact holds_empty.miss rfl
    · rw [← counted, ← h.counted]
      exact (Nat.add_assoc _ _ _).symm
  · rename_i same
    rw [not_not, h.scope] at same
    have held : Holds capacity (continued snapshotId history) c.entries := by
      rw [continued_same same]
      exact h.entries
    cases found : c.entries.get? key with
    | none =>
        refine ⟨h.bound, h.scope.trans same.symm, held.miss found, ?_⟩
        rw [← counted, ← h.counted]
        exact (Nat.add_assoc _ _ _).symm
    | some value =>
        refine ⟨h.bound, h.scope.trans same.symm,
          held.use (OrderedDict.mem_entries_of_get? found), ?_⟩
        rw [← counted, ← h.counted]
        exact Nat.add_right_comm _ _ _

theorem Refines.call (h : Refines capacity history c) (call : CacheCall α) :
    Refines capacity (call :: history) (c.call call) := by
  cases call with
  | get snapshotId key => exact h.get snapshotId key
  | put snapshotId key value => exact h.put snapshotId key value
  | clear => exact h.clear

theorem refines_run (capacity : Nat) (calls : List (CacheCall α)) :
    Refines capacity calls.reverse (Machine.run SnapshotCache.call (.empty capacity) calls) := by
  induction calls using List.reverseRecOn with
  | nil => exact ⟨rfl, rfl, holds_empty, rfl⟩
  | append_singleton calls call ih =>
      rw [List.reverse_concat, Machine.run_concat]
      exact ih.call call

/-- A lookup finds exactly what its scope holds. -/
theorem Refines.get_eq_some (h : Refines capacity history c) (snapshotId : Option String)
    (key : String) (value : α) :
    (c.get snapshotId key).1 = some value ↔ snapshotId = scopeAfter history ∧
      key ∈ recentKeys capacity (episode history) ∧ lastPut key (episode history) = some value := by
  rw [← h.scope, ← h.entries.get?_eq_some]
  unfold SnapshotCache.get
  by_cases same : snapshotId = c.snapshotId
  · rw [if_neg (not_not.mpr same)]
    cases c.entries.get? key <;> simp [same]
  · simp [same]

end Calls

/-- After any calls the cache holds the most recently used keys of the current episode with
their last puts, a lookup finds exactly these, every lookup is counted once, and a put
counts as evictions the entries it pushes out. -/
theorem cache_refines (capacity : Nat) (calls : List (CacheCall α)) :
    let c := Machine.run SnapshotCache.call (.empty capacity) calls
    Refines capacity calls.reverse c ∧ c.entries.length ≤ capacity ∧
      (∀ snapshotId key value, (c.get snapshotId key).1 = some value ↔
        snapshotId = scopeAfter calls.reverse ∧
          key ∈ recentKeys capacity (episode calls.reverse) ∧
          lastPut key (episode calls.reverse) = some value) ∧
      (∀ snapshotId key value, (c.put snapshotId key value).evictions =
        c.evictions + pushedOut capacity calls.reverse snapshotId key value) ∧
      (∀ snapshotId key, (c.get snapshotId key).2.evictions = c.evictions) ∧
      c.clear.evictions = c.evictions := by
  have h := refines_run capacity calls
  exact ⟨h, h.entries.length_le, h.get_eq_some, evictions_put h, evictions_get _, rfl⟩

/-- An entry does not come back with its snapshot id. -/
example : let calls := [CacheCall.put (some "7") "hourly" 1, .get (some "8") "hourly"]
    ((Machine.run SnapshotCache.call (.empty 2) calls).get (some "7") "hourly").1 = none := by
  decide

end PaymentsPlatform.Api
