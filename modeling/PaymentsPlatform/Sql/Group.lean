import PaymentsPlatform.Sql.Window

/-!
# `GROUP BY`

`groups key rows` lists the groups of a bag under the values of a grouping key, each
with its rows. NULL is a key like any other. An aggregate is a function of the rows of a
group, so a grouped query is a `map` over `groups`.

* `filter_groups`: filtering the groups by their key is grouping the filtered rows.
* `sum_groups`: sums of the groups add up to the sum of the rows.
-/

namespace PaymentsPlatform.Sql

variable {α κ M : Type*} [DecidableEq κ] {key : α → κ} {rows : List α} {k : κ}

/-- The groups of a bag, with their rows. -/
def groups (key : α → κ) (rows : List α) : List (κ × List α) :=
  (rows.map key).dedup.map fun k => (k, partition key k rows)

theorem mem_groups {g : κ × List α} :
    g ∈ groups key rows ↔ g.1 ∈ rows.map key ∧ g.2 = partition key g.1 rows := by
  obtain ⟨k, members⟩ := g
  simp only [groups, List.mem_map, List.mem_dedup, Prod.mk.injEq]
  constructor
  · rintro ⟨_, hk, rfl, rfl⟩
    exact ⟨hk, rfl⟩
  · rintro ⟨hk, rfl⟩
    exact ⟨k, hk, rfl, rfl⟩

/-- No group is empty. -/
theorem group_ne_nil {g : κ × List α} (hg : g ∈ groups key rows) : g.2 ≠ [] := by
  obtain ⟨hkey, hmembers⟩ := mem_groups.mp hg
  obtain ⟨r, hr, hk⟩ := List.mem_map.mp hkey
  exact List.ne_nil_of_mem (hmembers ▸ mem_partition.mpr ⟨hr, hk⟩)

@[simp] theorem map_fst_groups (key : α → κ) (rows : List α) :
    (groups key rows).map Prod.fst = (rows.map key).dedup := by
  simp [groups, Function.comp_def]

/-- Every key has one group. -/
theorem nodup_groups (key : α → κ) (rows : List α) : ((groups key rows).map Prod.fst).Nodup := by
  rw [map_fst_groups]
  exact List.nodup_dedup _

theorem length_groups (key : α → κ) (rows : List α) :
    (groups key rows).length = (rows.map key).dedup.length := by
  simp [groups]

private theorem filter_dedup (p : κ → Bool) (ks : List κ) :
    ks.dedup.filter p = (ks.filter p).dedup := by
  induction ks with
  | nil => rfl
  | cons k ks ih =>
      by_cases hp : p k = true
      · rw [List.filter_cons_of_pos hp]
        by_cases seen : k ∈ ks
        · rw [List.dedup_cons_of_mem seen, ih,
            List.dedup_cons_of_mem (List.mem_filter.mpr ⟨seen, hp⟩)]
        · rw [List.dedup_cons_of_notMem seen, List.filter_cons_of_pos hp, ih,
            List.dedup_cons_of_notMem fun h => seen (List.mem_filter.mp h).1]
      · rw [List.filter_cons_of_neg hp]
        by_cases seen : k ∈ ks
        · rw [List.dedup_cons_of_mem seen, ih]
        · rw [List.dedup_cons_of_notMem seen, List.filter_cons_of_neg hp, ih]

/-- A condition on the key can be checked before or after grouping. -/
theorem filter_groups (p : κ → Bool) (key : α → κ) (rows : List α) :
    (groups key rows).filter (fun g => p g.1) = groups key (rows.filter fun r => p (key r)) := by
  have keys : (rows.filter fun r => p (key r)).map key = (rows.map key).filter p := by
    rw [List.filter_map]
    rfl
  rw [groups, groups, keys, List.filter_map, ← filter_dedup]
  refine List.map_congr_left fun k hk => ?_
  have hp : p k = true := (List.mem_filter.mp hk).2
  rw [partition, partition, List.filter_filter]
  congr 1
  refine List.filter_congr fun r _ => ?_
  by_cases hr : key r = k <;> simp [hr, hp]

variable [AddCommMonoid M]

private theorem sum_indicator {ks : List κ} (nodup : ks.Nodup) (x : M) (hk : k ∈ ks) :
    (ks.map fun k' => if k = k' then x else 0).sum = x := by
  induction ks with
  | nil => cases hk
  | cons k' ks ih =>
      obtain ⟨fresh, rest⟩ := List.nodup_cons.mp nodup
      rw [List.map_cons, List.sum_cons]
      by_cases same : k = k'
      · subst same
        have zeros : (ks.map fun k' => if k = k' then x else 0).sum = 0 := by
          refine List.sum_eq_zero fun y hy => ?_
          obtain ⟨k', hk', rfl⟩ := List.mem_map.mp hy
          exact if_neg fun same : k = k' => fresh (same ▸ hk')
        rw [if_pos rfl, zeros, add_zero]
      · rw [if_neg same, zero_add]
        exact ih rest ((List.mem_cons.mp hk).resolve_left same)

private theorem sum_partitions (w : α → M) {ks : List κ} (nodup : ks.Nodup)
    (covers : ∀ r ∈ rows, key r ∈ ks) :
    (ks.map fun k => ((partition key k rows).map w).sum).sum = (rows.map w).sum := by
  induction rows with
  | nil => simp [partition]
  | cons r rows ih =>
      have split : ∀ k, ((partition key k (r :: rows)).map w).sum =
          (if key r = k then w r else 0) + ((partition key k rows).map w).sum := by
        intro k
        by_cases hr : key r = k <;> simp [partition, hr]
      simp only [split, List.sum_map_add]
      rw [ih fun r hr => covers r (List.mem_cons_of_mem _ hr),
        sum_indicator nodup _ (covers r List.mem_cons_self), List.map_cons, List.sum_cons]

/-- The sums of the groups add up to the sum of all rows. -/
theorem sum_groups (w : α → M) (key : α → κ) (rows : List α) :
    ((groups key rows).map fun g => (g.2.map w).sum).sum = (rows.map w).sum := by
  rw [groups, List.map_map]
  exact sum_partitions w (List.nodup_dedup _) fun r hr =>
    List.mem_dedup.mpr (List.mem_map_of_mem hr)

omit [AddCommMonoid M] in
/-- The groups have the rows of the bag. -/
theorem groups_perm (key : α → κ) (rows : List α) :
    ((groups key rows).flatMap Prod.snd).Perm rows := by
  have singletons : ∀ members : List α,
      (members.map fun r => ({r} : Multiset α)).sum = (members : Multiset α) := by
    intro members
    rw [← Multiset.sum_coe, ← Multiset.map_coe, Multiset.sum_map_singleton]
  have same := sum_groups (fun r : α => ({r} : Multiset α)) key rows
  simp only [singletons] at same
  rw [← Multiset.coe_eq_coe, ← same, ← Multiset.sum_coe, ← Multiset.map_coe, ← Multiset.join]
  exact (Multiset.coe_bind (groups key rows) Prod.snd).symm

/-- `SUM(column)`: it passes over NULLs, and is NULL when there is nothing else. -/
def sum (column : α → Option M) (rows : List α) : Option M :=
  match rows.filterMap column with
  | [] => none
  | values => some values.sum

/-- A nullable number, with NULL for a new zero. -/
def nullAsZero (n : Option M) : WithZero M := n

private theorem nullAsZero_sum (column : α → Option M) (rows : List α) :
    nullAsZero (sum column rows) = (rows.map fun r => nullAsZero (column r)).sum := by
  induction rows with
  | nil => rfl
  | cons r rows ih =>
      rw [List.map_cons, List.sum_cons, ← ih, sum, sum]
      cases hr : column r with
      | none =>
          rw [List.filterMap_cons_none hr]
          exact (zero_add _).symm
      | some v =>
          rw [List.filterMap_cons_some hr]
          cases rows.filterMap column with
          | nil => exact congrArg some List.sum_singleton
          | cons u values => exact congrArg some List.sum_cons

/-- The sums of the groups add up to the sum of all rows, NULLs included. -/
theorem sum_sum_groups (column : α → Option M) (key : α → κ) (rows : List α) :
    sum (fun g : κ × List α => sum column g.2) (groups key rows) = sum column rows := by
  have total : nullAsZero (sum (fun g : κ × List α => sum column g.2) (groups key rows)) =
      nullAsZero (sum column rows) := by
    rw [nullAsZero_sum, nullAsZero_sum, ← sum_groups _ key rows]
    simp only [nullAsZero_sum]
  exact total

/-- The rows of a condition that splits into two exclusive ones are those of the two. -/
theorem sum_filter_split (w : α → M) {p q r : α → Bool}
    (split : ∀ x ∈ rows, r x = (p x || q x)) (exclusive : ∀ x ∈ rows, ¬(p x = true ∧ q x = true)) :
    ((rows.filter p).map w).sum + ((rows.filter q).map w).sum = ((rows.filter r).map w).sum := by
  induction rows with
  | nil => simp
  | cons x rows ih =>
      have ih := ih (fun y hy => split y (List.mem_cons_of_mem _ hy))
        fun y hy => exclusive y (List.mem_cons_of_mem _ hy)
      have hsplit := split x List.mem_cons_self
      have hexclusive := exclusive x List.mem_cons_self
      cases hp : p x <;> cases hq : q x <;> rw [hp, hq] at hsplit
      · simpa [hp, hq, hsplit] using ih
      · simp [hp, hq, hsplit, ← ih, add_left_comm]
      · simp [hp, hq, hsplit, ← ih, add_assoc]
      · exact absurd ⟨hp, hq⟩ hexclusive

end PaymentsPlatform.Sql
