import Mathlib

/-!
# Insertion-ordered dictionaries

`collections.OrderedDict`: entries in order, one for each key. Assigning to a key that
is there keeps its place, a new key goes to the end, and a key can be moved there.
-/

namespace PaymentsPlatform

/-- Entries in order, with distinct keys. -/
structure OrderedDict (κ α : Type*) where
  entries : List (κ × α)
  nodup : (entries.map Prod.fst).Nodup

namespace OrderedDict

variable {κ α : Type*} [DecidableEq κ] {d : OrderedDict κ α} {key k : κ} {value v : α}

def empty : OrderedDict κ α := { entries := [], nodup := List.nodup_nil }

def length (d : OrderedDict κ α) : Nat := d.entries.length

def get? (d : OrderedDict κ α) (key : κ) : Option α :=
  (d.entries.find? fun e => e.1 = key).map Prod.snd

/-- The keys of a list after an assignment. -/
private theorem keys_assign (entries : List (κ × α)) (key : κ) (value : α) :
    (entries.map fun e => if e.1 = key then (key, value) else e).map Prod.fst =
      entries.map Prod.fst := by
  rw [List.map_map]
  refine List.map_congr_left fun e _ => ?_
  by_cases same : e.1 = key <;> simp [same]

/-- A key that is there keeps its place. -/
def setItem (d : OrderedDict κ α) (key : κ) (value : α) : OrderedDict κ α :=
  if found : key ∈ d.entries.map Prod.fst then
    { entries := d.entries.map fun e => if e.1 = key then (key, value) else e
      nodup := by
        rw [keys_assign]
        exact d.nodup }
  else
    { entries := d.entries ++ [(key, value)]
      nodup := by
        rw [List.map_append]
        exact List.Nodup.append d.nodup (List.nodup_singleton key)
          (List.disjoint_singleton.mpr found) }

/-- `d.move_to_end(key)`, for a key that is there. -/
def moveToEnd (d : OrderedDict κ α) (key : κ) : OrderedDict κ α where
  entries := d.entries.filter (fun e => e.1 ≠ key) ++ d.entries.filter fun e => e.1 = key
  nodup := by
    have split := (List.filter_append_perm (fun e : κ × α => decide (e.1 = key)) d.entries)
    refine (List.Perm.nodup_iff (List.Perm.map Prod.fst ?_)).mpr d.nodup
    refine List.perm_append_comm.trans ?_
    simpa using split

/-- Without the entry that came first. -/
def popFirst (d : OrderedDict κ α) : OrderedDict κ α where
  entries := d.entries.tail
  nodup := by
    rw [List.map_tail]
    exact d.nodup.tail

theorem mem_entries_of_get? (h : d.get? key = some value) : (key, value) ∈ d.entries := by
  obtain ⟨e, he, rfl⟩ := Option.map_eq_some_iff.mp h
  have same : e.1 = key := by simpa using List.find?_some he
  rw [← same]
  exact List.mem_of_find?_eq_some he

theorem mem_setItem (h : (k, v) ∈ (d.setItem key value).entries) :
    (k, v) = (key, value) ∨ (k, v) ∈ d.entries := by
  unfold setItem at h
  split at h
  · obtain ⟨e, he, heq⟩ := List.mem_map.mp h
    split at heq
    · exact .inl heq.symm
    · exact .inr (heq ▸ he)
  · rcases List.mem_append.mp h with hold | hnew
    · exact .inr hold
    · exact .inl (List.mem_singleton.mp hnew)

/-- A new key goes to the end. -/
theorem entries_setItem_of_notMem (value : α) (absent : key ∉ d.entries.map Prod.fst) :
    (d.setItem key value).entries = d.entries ++ [(key, value)] := by
  rw [setItem, dif_neg absent]

/-- Assigning to new keys one after the other appends them. -/
theorem entries_foldl_setItem {items : List (κ × α)} (nodup : (items.map Prod.fst).Nodup)
    (absent : ∀ e ∈ items, e.1 ∉ d.entries.map Prod.fst) :
    (items.foldl (fun d e => d.setItem e.1 e.2) d).entries = d.entries ++ items := by
  induction items generalizing d with
  | nil => simp
  | cons e items ih =>
      obtain ⟨fresh, nodup⟩ := List.nodup_cons.mp nodup
      obtain ⟨habsent, absent⟩ := List.forall_mem_cons.mp absent
      have added := entries_setItem_of_notMem e.2 habsent
      rw [List.foldl_cons, ih nodup, added, List.append_assoc]
      · rfl
      · intro e' he' hmem
        rw [added, List.map_append, List.mem_append] at hmem
        rcases hmem with hmem | hmem
        · exact absent e' he' hmem
        · exact fresh (List.mem_singleton.mp hmem ▸ List.mem_map_of_mem he')

/-- The one entry of a key. -/
theorem filter_key (h : (key, value) ∈ d.entries) :
    d.entries.filter (fun e => e.1 = key) = [(key, value)] := by
  have nodup := d.nodup.of_map.filter fun e => e.1 = key
  have unique : ∀ e ∈ d.entries.filter (fun e => e.1 = key), e = (key, value) := by
    intro e he
    obtain ⟨hmem, same⟩ := List.mem_filter.mp he
    exact List.inj_on_of_nodup_map d.nodup hmem h (of_decide_eq_true same)
  have found : (key, value) ∈ d.entries.filter fun e => e.1 = key :=
    List.mem_filter.mpr ⟨h, decide_eq_true rfl⟩
  generalize d.entries.filter (fun e => e.1 = key) = entries at nodup unique found ⊢
  match entries with
  | [] => cases found
  | [e] => rw [unique e List.mem_cons_self]
  | e :: e' :: rest =>
      have same : e = e' := (unique e (by simp)).trans (unique e' (by simp)).symm
      exact absurd (same ▸ List.mem_cons_self) (List.nodup_cons.mp nodup).1

theorem get?_of_mem (h : (k, v) ∈ d.entries) : d.get? k = some v := by
  rw [get?, ← List.head?_filter, filter_key h]
  rfl

/-- The entry that is moved becomes the last one. -/
theorem entries_moveToEnd (h : (key, value) ∈ d.entries) :
    (d.moveToEnd key).entries = d.entries.filter (fun e => e.1 ≠ key) ++ [(key, value)] := by
  show d.entries.filter (fun e => e.1 ≠ key) ++ d.entries.filter (fun e => e.1 = key) = _
  rw [filter_key h]

/-- An assignment leaves the entries of the other keys. -/
theorem filter_setItem (d : OrderedDict κ α) (key : κ) (value : α) :
    (d.setItem key value).entries.filter (fun e => e.1 ≠ key) =
      d.entries.filter fun e => e.1 ≠ key := by
  unfold setItem
  split
  · rw [List.filter_map]
    have others : ((fun e : κ × α => decide (e.1 ≠ key)) ∘
        fun e => if e.1 = key then (key, value) else e) = fun e => decide (e.1 ≠ key) := by
      funext e
      by_cases same : e.1 = key <;> simp [same]
    rw [others]
    refine (List.map_congr_left fun e he => ?_).trans (List.map_id _)
    exact if_neg (of_decide_eq_true (List.mem_filter.mp he).2)
  · rw [List.filter_append]
    simp

theorem mem_setItem_self (d : OrderedDict κ α) (key : κ) (value : α) :
    (key, value) ∈ (d.setItem key value).entries := by
  unfold setItem
  split
  · rename_i found
    obtain ⟨e, he, same⟩ := List.mem_map.mp found
    exact List.mem_map.mpr ⟨e, he, if_pos same⟩
  · exact List.mem_append_right _ List.mem_cons_self

theorem mem_moveToEnd : (k, v) ∈ (d.moveToEnd key).entries ↔ (k, v) ∈ d.entries := by
  simp only [moveToEnd, List.mem_append, List.mem_filter]
  by_cases same : k = key <;> simp [same]

omit [DecidableEq κ] in
theorem mem_popFirst (h : (k, v) ∈ d.popFirst.entries) : (k, v) ∈ d.entries :=
  List.mem_of_mem_tail h

end OrderedDict

end PaymentsPlatform
