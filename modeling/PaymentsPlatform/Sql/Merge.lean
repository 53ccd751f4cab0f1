import PaymentsPlatform.Sql.Logic
import PaymentsPlatform.Sql.Window

/-!
# `MERGE INTO`

A `Merge` is the statement with its conditional clauses; `Merge.exec` runs it on a
table given as a list of rows. Every target row takes the first `WHEN MATCHED`
clause whose condition holds for its source row, every source row that matches no
target row takes the first `WHEN NOT MATCHED` clause, and a target row matched by
more than one source row is an error (`none`), whatever the clauses say.

Tables carry no key constraint. `KeyedBy` says that a statement joins on a key
and never rewrites it; then `rowsAt_exec` describes the result key by key, with no
assumption that the target's keys are unique. NULL keys match nothing.
-/

namespace PaymentsPlatform.Sql

/-- A `MERGE` statement between target rows `T` and source rows `S`. A matched
clause maps the pair to the new target row, or to `none` to delete it. -/
structure Merge (T S : Type*) where
  on : T → S → Truth
  whenMatched : List ((T → S → Truth) × (T → S → Option T))
  whenNotMatched : List ((S → Truth) × (S → T))

namespace Merge

variable {T S κ : Type*} {m : Merge T S} {target result : List T} {source : List S}

/-- The join condition is true for this pair. -/
def pairs (m : Merge T S) (t : T) (s : S) : Bool := (m.on t s).holds

/-- The matched row after the first clause that applies; a row no clause applies
to is kept. -/
def applyMatched (m : Merge T S) (t : T) (s : S) : Option T :=
  match m.whenMatched.find? fun clause => (clause.1 t s).holds with
  | some clause => clause.2 t s
  | none => some t

/-- The row inserted for an unmatched source row, if a clause applies. -/
def insertFor (m : Merge T S) (s : S) : Option T :=
  (m.whenNotMatched.find? fun clause => (clause.1 s).holds).map fun clause => clause.2 s

/-- What becomes of one target row. -/
def targetRow (m : Merge T S) (source : List S) (t : T) : Option T :=
  match source.find? (m.pairs t) with
  | some s => m.applyMatched t s
  | none => some t

/-- What becomes of the rows of one key that has at most one source row: they go
through the matched clauses against it, and it is inserted when there are none. -/
def mergedRows (m : Merge T S) (rows : List T) : Option S → List T
  | none => rows
  | some s => rows.filterMap (fun t => m.applyMatched t s) ++
      if rows = [] then (m.insertFor s).toList else []

/-- Run the statement; `none` is the cardinality violation. -/
def exec (m : Merge T S) (target : List T) (source : List S) : Option (List T) :=
  if target.any fun t => decide (1 < source.countP (m.pairs t)) then none
  else some (target.filterMap (m.targetRow source) ++
    (source.filter fun s => !target.any fun t => m.pairs t s).filterMap m.insertFor)

/-- The statement joins target and source rows on a nullable key, keeps the key of
an updated row, and inserts a source row under its own key. -/
structure KeyedBy (m : Merge T S) (tkey : T → Option κ) (skey : S → Option κ) : Prop where
  on_iff : ∀ t s, m.pairs t s = true ↔ ∃ k, tkey t = some k ∧ skey s = some k
  update_key : ∀ t s t', m.applyMatched t s = some t' → tkey t' = tkey t
  insert_key : ∀ s t, m.insertFor s = some t → tkey t = skey s

@[simp] theorem mergedRows_nil (m : Merge T S) (s : S) :
    m.mergedRows [] (some s) = (m.insertFor s).toList := rfl

@[simp] theorem mergedRows_singleton (m : Merge T S) (t : T) (s : S) :
    m.mergedRows [t] (some s) = (m.applyMatched t s).toList := by
  cases h : m.applyMatched t s <;> simp [mergedRows, h]

theorem exec_eq_some (h : m.exec target source = some result) :
    result = target.filterMap (m.targetRow source) ++
      (source.filter fun s => !target.any fun t => m.pairs t s).filterMap m.insertFor := by
  unfold exec at h
  split at h
  · cases h
  · exact (Option.some.inj h).symm

@[simp] theorem exec_nil (m : Merge T S) (target : List T) : m.exec target [] = some target := by
  have kept : m.targetRow [] = some := by
    funext t
    rfl
  simp [exec, kept]

variable {tkey : T → Option κ} {skey : S → Option κ} {k : κ}

private theorem targetRow_key (hk : m.KeyedBy tkey skey) {t t' : T}
    (h : m.targetRow source t = some t') : tkey t' = tkey t := by
  unfold targetRow at h
  split at h
  · exact hk.update_key _ _ _ h
  · rw [Option.some.inj h]

/-- Every row of the result keeps the key of a target row or is an inserted row. -/
theorem KeyedBy.mem_exec (hk : m.KeyedBy tkey skey) (h : m.exec target source = some result)
    {t' : T} (ht : t' ∈ result) :
    (∃ t ∈ target, tkey t' = tkey t) ∨ ∃ s ∈ source, m.insertFor s = some t' := by
  rw [exec_eq_some h, List.mem_append, List.mem_filterMap, List.mem_filterMap] at ht
  rcases ht with ⟨t, hmem, htarget⟩ | ⟨s, hmem, hs⟩
  · exact .inl ⟨t, hmem, targetRow_key hk htarget⟩
  · exact .inr ⟨s, (List.mem_filter.mp hmem).1, hs⟩

/-- The statement deletes nothing and inserts every source row it does not match. -/
structure Upserts (m : Merge T S) : Prop where
  matched : ∀ t s, ∃ t', m.applyMatched t s = some t'
  unmatched : ∀ s, ∃ t, m.insertFor s = some t

theorem Upserts.targetRow_isSome (hu : m.Upserts) (source : List S) (t : T) :
    ∃ t', m.targetRow source t = some t' := by
  unfold targetRow
  split
  · exact hu.matched _ _
  · exact ⟨t, rfl⟩

/-- An upserting statement leaves exactly the keys of its target and its source,
also when a key occurs several times on either side. -/
theorem KeyedBy.mem_keys_exec (hk : m.KeyedBy tkey skey) (hu : m.Upserts)
    (h : m.exec target source = some result) :
    (∃ t ∈ result, tkey t = some k) ↔
      (∃ t ∈ target, tkey t = some k) ∨ ∃ s ∈ source, skey s = some k := by
  rw [exec_eq_some h]
  constructor
  · rintro ⟨t, ht, key⟩
    rcases hk.mem_exec h (by rw [exec_eq_some h]; exact ht) with ⟨t₀, hmem, same⟩ | ⟨s, hmem, hs⟩
    · exact .inl ⟨t₀, hmem, same ▸ key⟩
    · exact .inr ⟨s, hmem, by rw [← hk.insert_key s t hs, key]⟩
  · have survives : ∀ t ∈ target, tkey t = some k → ∃ t' ∈ target.filterMap
        (m.targetRow source) ++ (source.filter fun s => !target.any fun t => m.pairs t s).filterMap
          m.insertFor, tkey t' = some k := by
      intro t hmem key
      obtain ⟨t', ht'⟩ := hu.targetRow_isSome source t
      exact ⟨t', List.mem_append_left _ (List.mem_filterMap.mpr ⟨t, hmem, ht'⟩),
        by rw [targetRow_key hk ht', key]⟩
    rintro (⟨t, hmem, key⟩ | ⟨s, hmem, key⟩)
    · exact survives t hmem key
    · by_cases found : target.any (fun t => m.pairs t s) = true
      · obtain ⟨t, ht, hp⟩ := List.any_eq_true.mp found
        obtain ⟨k', hkt, hks⟩ := (hk.on_iff t s).mp hp
        exact survives t ht (by rw [hkt, ← hks, key])
      · obtain ⟨t, ht⟩ := hu.unmatched s
        refine ⟨t, List.mem_append_right _ (List.mem_filterMap.mpr ⟨s, ?_, ht⟩), ?_⟩
        · exact List.mem_filter.mpr ⟨hmem, by simpa using found⟩
        · rw [hk.insert_key s t ht, key]

variable [DecidableEq κ]

private theorem countP_pairs (hk : m.KeyedBy tkey skey) {t : T} (ht : tkey t = some k) :
    source.countP (m.pairs t) = (partition skey (some k) source).length := by
  rw [partition, ← List.countP_eq_length_filter]
  apply List.countP_congr
  intro s _
  rw [hk.on_iff, decide_eq_true_eq, ht]
  constructor
  · rintro ⟨k', h, hs⟩
    rw [hs, h]
  · intro hs
    exact ⟨k, rfl, hs⟩

/-- With at most one source row for every key no target row is matched twice. -/
theorem KeyedBy.exec_isSome (hk : m.KeyedBy tkey skey) (target : List T)
    (unique : ∀ k : κ, (partition skey (some k) source).length ≤ 1) :
    ∃ result, m.exec target source = some result := by
  unfold exec
  rw [if_neg]
  · exact ⟨_, rfl⟩
  · simp only [List.any_eq_true, decide_eq_true_eq, not_exists, not_and, not_lt]
    intro t _
    cases key : tkey t with
    | none =>
        have none_pairs : source.countP (m.pairs t) = 0 := by
          rw [List.countP_eq_zero]
          intro s _ hp
          obtain ⟨k, ht, _⟩ := (hk.on_iff t s).mp hp
          rw [key] at ht
          cases ht
        omega
    | some k => exact countP_pairs hk key ▸ unique k

/-- A statement that runs has at most one source row for every key of its target. -/
theorem KeyedBy.length_source_le (hk : m.KeyedBy tkey skey)
    (h : m.exec target source = some result) (occupied : partition tkey (some k) target ≠ []) :
    (partition skey (some k) source).length ≤ 1 := by
  obtain ⟨t, ht⟩ := List.exists_mem_of_ne_nil _ occupied
  obtain ⟨hmem, key⟩ := mem_partition.mp ht
  by_contra several
  rw [exec, if_pos] at h
  · cases h
  · rw [List.any_eq_true]
    exact ⟨t, hmem, decide_eq_true (countP_pairs hk key ▸ not_le.mp several)⟩

private theorem filter_filterMap_of_key {α β : Type*} {p : α → Bool} {q : β → Bool}
    {f : α → Option β} (h : ∀ a b, f a = some b → q b = p a) (xs : List α) :
    (xs.filterMap f).filter q = (xs.filter p).filterMap f := by
  induction xs with
  | nil => rfl
  | cons x xs ih =>
      cases hf : f x with
      | none => by_cases hp : p x = true <;> simp [hf, hp, ih]
      | some b =>
          have hq := h x b hf
          by_cases hp : p x = true <;> simp [hf, hp, hq, ih]

private theorem find?_pairs (hk : m.KeyedBy tkey skey) {t : T} (ht : tkey t = some k) :
    source.find? (m.pairs t) = (partition skey (some k) source).head? := by
  rw [partition, List.head?_filter]
  congr 1
  funext s
  rw [Bool.eq_iff_iff, hk.on_iff, decide_eq_true_eq, ht]
  constructor
  · rintro ⟨k', h, hs⟩
    rw [hs, h]
  · intro hs
    exact ⟨k, rfl, hs⟩

private theorem any_pairs (hk : m.KeyedBy tkey skey) {s : S} (hs : skey s = some k) :
    target.any (fun t => m.pairs t s) = !(partition tkey (some k) target).isEmpty := by
  rw [Bool.eq_iff_iff]
  simp only [List.any_eq_true, hk.on_iff, Bool.not_eq_true', List.isEmpty_eq_false_iff_exists_mem,
    mem_partition]
  constructor
  · rintro ⟨t, hmem, k', ht, hs'⟩
    exact ⟨t, hmem, by rw [ht, ← hs', hs]⟩
  · rintro ⟨t, hmem, ht⟩
    exact ⟨t, hmem, k, ht, hs⟩

/-- The result key by key, also where a key has several source rows. -/
theorem KeyedBy.partition_exec (hk : m.KeyedBy tkey skey)
    (h : m.exec target source = some result) :
    partition tkey (some k) result =
      (partition tkey (some k) target).filterMap (m.targetRow source) ++
        if partition tkey (some k) target = [] then
          (partition skey (some k) source).filterMap m.insertFor
        else [] := by
  rw [exec_eq_some h, partition_append]
  have updated : partition tkey (some k) (target.filterMap (m.targetRow source)) =
      (partition tkey (some k) target).filterMap (m.targetRow source) := by
    apply filter_filterMap_of_key
    intro t t' ht
    rw [targetRow_key hk ht]
  have inserted : partition tkey (some k)
      ((source.filter fun s => !target.any fun t => m.pairs t s).filterMap m.insertFor) =
      if partition tkey (some k) target = [] then
        (partition skey (some k) source).filterMap m.insertFor
      else [] := by
    rw [partition, filter_filterMap_of_key (p := fun s => decide (skey s = some k))]
    · rw [List.filter_filter]
      have same : (source.filter fun s =>
            decide (skey s = some k) && !target.any fun t => m.pairs t s) =
          (partition skey (some k) source).filter
            fun _ => (partition tkey (some k) target).isEmpty := by
        change _ = (source.filter fun s => decide (skey s = some k)).filter _
        rw [List.filter_filter]
        apply List.filter_congr
        intro s _
        by_cases hs : skey s = some k
        · simp [hs, any_pairs hk hs]
        · simp [hs]
      rw [same]
      by_cases hnil : partition tkey (some k) target = [] <;> simp [hnil]
    · intro s t hs
      rw [hk.insert_key s t hs]
  rw [updated, inserted]

/-- The result at a key that has at most one source row. -/
theorem KeyedBy.rowsAt_exec (hk : m.KeyedBy tkey skey)
    (h : m.exec target source = some result) {w : Option S}
    (hw : partition skey (some k) source = w.toList) :
    partition tkey (some k) result = m.mergedRows (partition tkey (some k) target) w := by
  have row : ∀ t ∈ partition tkey (some k) target,
      m.targetRow source t = w.elim (some t) (fun s => m.applyMatched t s) := by
    intro t ht
    rw [targetRow, find?_pairs hk (mem_partition.mp ht).2, hw]
    cases w <;> rfl
  rw [hk.partition_exec h, hw, List.filterMap_congr row]
  cases w with
  | none => simp [mergedRows]
  | some s => cases hs : m.insertFor s <;> simp [mergedRows, hs]

/-- Rows without a key match nothing, so that they stay as they are, and they stay the only
ones when no row without a key is inserted. -/
theorem KeyedBy.partition_none_exec (hk : m.KeyedBy tkey skey)
    (h : m.exec target source = some result)
    (identified : ∀ s ∈ source, ∀ t, m.insertFor s = some t → ∃ k, skey s = some k) :
    partition tkey none result = partition tkey none target := by
  have kept : ∀ t ∈ partition tkey none target, m.targetRow source t = some t := by
    intro t ht
    have unmatched : source.find? (m.pairs t) = none := by
      rw [List.find?_eq_none]
      intro s _ pairs
      obtain ⟨k, key, _⟩ := (hk.on_iff t s).mp pairs
      cases (mem_partition.mp ht).2.symm.trans key
    rw [targetRow, unmatched]
  have updated : partition tkey none (target.filterMap (m.targetRow source)) =
      partition tkey none target := by
    rw [partition, filter_filterMap_of_key fun t t' ht => by rw [targetRow_key hk ht]]
    exact (List.filterMap_congr kept).trans List.filterMap_some
  rw [exec_eq_some h, partition_append, updated, List.append_right_eq_self, partition,
    List.filter_eq_nil_iff]
  intro t ht null
  obtain ⟨s, hs, hinsert⟩ := List.mem_filterMap.mp ht
  obtain ⟨k, key⟩ := identified s (List.mem_filter.mp hs).1 t hinsert
  cases key.symm.trans ((hk.insert_key s t hinsert).symm.trans (of_decide_eq_true null))

/-- One target row and one source row at a key leave at most one. -/
theorem KeyedBy.length_partition_exec_le (hk : m.KeyedBy tkey skey)
    (h : m.exec target source = some result)
    (single : (partition tkey (some k) target).length ≤ 1)
    (unique : (partition skey (some k) source).length ≤ 1) :
    (partition tkey (some k) result).length ≤ 1 := by
  rw [hk.partition_exec h, List.length_append]
  have updated := List.length_filterMap_le (m.targetRow source) (partition tkey (some k) target)
  split
  · rename_i empty
    have inserted := List.length_filterMap_le m.insertFor (partition skey (some k) source)
    rw [empty] at updated ⊢
    rw [List.filterMap_nil, List.length_nil]
    omega
  · rw [List.length_nil]
    omega

private theorem length_filterMap_of_isSome {α β : Type*} {f : α → Option β}
    (total : ∀ a, ∃ b, f a = some b) (xs : List α) : (xs.filterMap f).length = xs.length := by
  induction xs with
  | nil => rfl
  | cons x xs ih =>
      obtain ⟨b, hb⟩ := total x
      rw [List.filterMap_cons_some hb, List.length_cons, List.length_cons, ih]

/-- An upserting statement neither merges the rows of a key nor deduplicates its source:
several rows of a key on either side leave several. -/
theorem KeyedBy.several_of_exec (hk : m.KeyedBy tkey skey) (hu : m.Upserts)
    (h : m.exec target source = some result)
    (several : 1 < (partition tkey (some k) target).length ∨
      1 < (partition skey (some k) source).length) :
    1 < (partition tkey (some k) result).length := by
  rw [hk.partition_exec h, List.length_append,
    length_filterMap_of_isSome (hu.targetRow_isSome source)]
  by_cases empty : partition tkey (some k) target = []
  · rw [if_pos empty, length_filterMap_of_isSome hu.unmatched, empty]
    rw [empty] at several
    exact Nat.lt_add_left _ (several.resolve_left (by simp))
  · have unique := hk.length_source_le h empty
    exact Nat.lt_add_right _ (several.resolve_right (not_lt.mpr unique))

end Merge

end PaymentsPlatform.Sql
