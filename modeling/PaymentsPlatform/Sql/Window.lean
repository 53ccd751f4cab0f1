import Mathlib

/-!
# Keeping one row per partition of a window

`latestBy part ord` is the idiom `ROW_NUMBER() OVER (PARTITION BY part ORDER BY
ord DESC) = 1`: one row of every partition, a greatest one. NULL is a partition
value like any other. The engine breaks remaining ties as it likes; here the
first of the tied rows in list order wins, so that a statement for all row orders
covers every choice the engine can make.
-/

namespace PaymentsPlatform.Sql

variable {α κ β : Type*} [DecidableEq κ] [LinearOrder β]
variable {part : α → κ} {ord : α → β} {rows : List α} {k : κ} {r : α}

/-- A nullable column as a descending sort with NULLs last ranks it. -/
def nullsLast {ι : Type*} : Option ι → WithBot ι
  | none => ⊥
  | some a => a

/-- The same with NULLs first. -/
def nullsFirst {ι : Type*} : Option ι → WithTop ι
  | none => ⊤
  | some a => a

theorem coe_le_nullsLast {ι : Type*} [LE ι] {a : ι} {column : Option ι} :
    (a : WithBot ι) ≤ nullsLast column ↔ ∃ b, column = some b ∧ a ≤ b := by
  cases column <;> simp [nullsLast]

theorem nullsFirst_inj {ι : Type*} {a b : Option ι} : nullsFirst a = nullsFirst b ↔ a = b := by
  cases a <;> cases b <;> simp [nullsFirst]

@[simp] theorem nullsFirst_some {ι : Type*} (a : ι) : nullsFirst (some a) = (a : WithTop ι) := rfl

/-- The rows of one partition. -/
def partition (part : α → κ) (k : κ) (rows : List α) : List α :=
  rows.filter fun r => part r = k

/-- The row that is numbered one in the partition of `k`, if there is any. -/
def latestOf (part : α → κ) (ord : α → β) (rows : List α) (k : κ) : Option α :=
  (partition part k rows).argmax ord

/-- One row of every partition. -/
def latestBy (part : α → κ) (ord : α → β) (rows : List α) : List α :=
  (rows.map part).dedup.filterMap (latestOf part ord rows)

@[simp] theorem mem_partition : r ∈ partition part k rows ↔ r ∈ rows ∧ part r = k := by
  simp [partition]

theorem partition_append (k : κ) (xs ys : List α) :
    partition part k (xs ++ ys) = partition part k xs ++ partition part k ys := by
  simp [partition]

/-- The rows have distinct keys exactly when no partition has more than one of them. -/
theorem nodup_map_iff : (rows.map part).Nodup ↔ ∀ k, (partition part k rows).length ≤ 1 := by
  rw [List.nodup_iff_count_le_one]
  refine forall_congr' fun k => ?_
  rw [List.count, List.countP_map, List.countP_eq_length_filter]
  rfl

theorem partition_some (k : κ) (rows : List α) :
    partition (fun r => some (part r)) (some k) rows = partition part k rows := by
  simp [partition]

/-- Bags with the same rows in every partition are the same bag. -/
theorem perm_of_partition (part : α → κ) {xs ys : List α}
    (h : ∀ k, partition part k xs = partition part k ys) : xs.Perm ys := by
  classical
  rw [List.perm_iff_count]
  intro r
  have counted : ∀ zs : List α, (partition part (part r) zs).count r = zs.count r :=
    fun zs => List.count_filter (by simp)
  rw [← counted xs, ← counted ys, h]

theorem latestOf_mem (h : latestOf part ord rows k = some r) : r ∈ rows ∧ part r = k :=
  mem_partition.mp (List.argmax_mem h)

theorem le_latestOf (h : latestOf part ord rows k = some r) {x : α} (hx : x ∈ rows)
    (hk : part x = k) : ord x ≤ ord r :=
  List.le_of_mem_argmax (mem_partition.mpr ⟨hx, hk⟩) h

theorem latestOf_eq_none : latestOf part ord rows k = none ↔ ∀ x ∈ rows, part x ≠ k := by
  simp [latestOf, partition, List.filter_eq_nil_iff]

theorem latestOf_isSome (part : α → κ) (ord : α → β) {x : α} (hx : x ∈ rows)
    (hk : part x = k) : ∃ r, latestOf part ord rows k = some r := by
  cases h : latestOf part ord rows k with
  | none => exact absurd hk (latestOf_eq_none.mp h x hx)
  | some r => exact ⟨r, rfl⟩

/-- When the order separates the rows of a partition up to equality, the winner is
the greatest row, whatever the order of the rows. -/
theorem latestOf_eq_some (hmem : r ∈ rows) (hk : part r = k)
    (hmax : ∀ x ∈ rows, part x = k → ord x ≤ ord r)
    (hinj : ∀ x ∈ rows, part x = k → ord x = ord r → x = r) :
    latestOf part ord rows k = some r := by
  obtain ⟨w, hw⟩ := latestOf_isSome part ord hmem hk
  obtain ⟨hwmem, hwk⟩ := latestOf_mem hw
  have same : ord w = ord r :=
    le_antisymm (hmax w hwmem hwk) (le_latestOf hw hmem hk)
  rw [hw, hinj w hwmem hwk same]

/-- When the order grows along the rows of a partition, the last of them wins. -/
theorem latestOf_eq_getLast?
    (increasing : (partition part k rows).Pairwise fun x y => ord x < ord y) :
    latestOf part ord rows k = (partition part k rows).getLast? := by
  rw [latestOf]
  generalize partition part k rows = members at increasing ⊢
  induction members using List.reverseRecOn with
  | nil => rfl
  | append_singleton members x ih =>
      obtain ⟨before, _, last⟩ := List.pairwise_append.mp increasing
      rw [List.argmax_concat, ih before, List.getLast?_concat]
      cases hlast : members.getLast? with
      | none => rfl
      | some y =>
          have newer : ord y < ord x :=
            last y (List.mem_of_getLast? hlast) x (List.mem_singleton_self x)
          simp [newer]

/-- Rewriting the rows without touching partition and order rewrites the winners. -/
theorem latestOf_map {α' : Type*} {part' : α' → κ} {ord' : α' → β} (f : α → α')
    (hpart : ∀ x ∈ rows, part' (f x) = part x) (hord : ∀ x ∈ rows, ord' (f x) = ord x) :
    latestOf part' ord' (rows.map f) k = (latestOf part ord rows k).map f := by
  have kept : partition part' k (rows.map f) = (partition part k rows).map f := by
    rw [partition, List.filter_map, partition]
    congr 1
    exact List.filter_congr fun x hx => by simp [hpart x hx]
  have hpartition : ∀ x ∈ partition part k rows, ord' (f x) = ord x :=
    fun x hx => hord x (mem_partition.mp hx).1
  rw [latestOf, latestOf, kept]
  generalize partition part k rows = members at hpartition
  induction members using List.reverseRecOn with
  | nil => rfl
  | append_singleton members x ih =>
      have hx := hpartition x (by simp)
      have ih := ih fun y hy => hpartition y (List.mem_append_left _ hy)
      rw [List.map_append, List.map_singleton, List.argmax_concat, List.argmax_concat, ih]
      cases hmax : members.argmax ord with
      | none => rfl
      | some y =>
          have hy := hpartition y (List.mem_append_left _ (List.argmax_mem hmax))
          simp only [Option.map_some, hx, hy]
          split <;> rfl

private theorem partition_filterMap {f : κ → Option α}
    (hf : ∀ k r, f k = some r → part r = k) (keys : List κ) (hnd : keys.Nodup) :
    partition part k (keys.filterMap f) = if k ∈ keys then (f k).toList else [] := by
  induction keys with
  | nil => simp [partition]
  | cons key keys ih =>
      obtain ⟨hfresh, hrest⟩ := List.nodup_cons.mp hnd
      have ih := ih hrest
      rw [List.filterMap_cons]
      by_cases hkey : key = k
      · subst hkey
        rw [if_neg hfresh] at ih
        cases hfk : f key with
        | none => simpa [hfk] using ih
        | some r =>
            have hr : part r = key := hf key r hfk
            simp only [partition, List.filter_cons, hr, decide_true, if_true,
              List.mem_cons_self, Option.toList_some] at ih ⊢
            rw [ih]
      · have hmem : k ∈ key :: keys ↔ k ∈ keys := by
          simp [List.mem_cons, Ne.symm hkey]
        simp only [hmem]
        cases hfk : f key with
        | none => simpa using ih
        | some r =>
            have hr : part r ≠ k := fun h => hkey ((hf key r hfk).symm.trans h)
            simpa [partition, List.filter_cons, hr] using ih

/-- The window keeps exactly the winner of each partition. -/
theorem partition_latestBy (part : α → κ) (ord : α → β) (rows : List α) (k : κ) :
    partition part k (latestBy part ord rows) = (latestOf part ord rows k).toList := by
  rw [latestBy, partition_filterMap (fun _ _ h => (latestOf_mem h).2) _ (List.nodup_dedup _)]
  split
  · rfl
  · rename_i absent
    have hnone : latestOf part ord rows k = none := latestOf_eq_none.mpr fun x hx hk =>
      absent (List.mem_dedup.mpr (List.mem_map.mpr ⟨x, hx, hk⟩))
    rw [hnone]
    rfl

end PaymentsPlatform.Sql
