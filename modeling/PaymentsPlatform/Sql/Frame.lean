import PaymentsPlatform.Sql.Group

/-!
# Window frames

`windowed part ord rows` lists every row with its two frames in the partition ordered by
`ord`: `ROWS BETWEEN UNBOUNDED PRECEDING AND CURRENT ROW` and `ROWS BETWEEN CURRENT ROW
AND UNBOUNDED FOLLOWING`. The engine orders tied rows as it likes; here they keep the
order of the list.
-/

namespace PaymentsPlatform.Sql

variable {α β γ κ : Type*}

/-- A row of an ordered partition, with the rows up to it and the rows from it on. -/
structure Frame (α : Type*) where
  preceding : List α
  row : α
  following : List α

/-- The frames of the rows that come after `before`. -/
def framesFrom (before : List α) : List α → List (Frame α)
  | [] => []
  | r :: after => ⟨before ++ [r], r, r :: after⟩ :: framesFrom (before ++ [r]) after

/-- `LAST_VALUE(column) IGNORE NULLS` over a frame. -/
def lastValue (column : α → Option γ) (frame : List α) : Option γ :=
  (frame.filterMap column).getLast?

/-- `FIRST_VALUE(column) IGNORE NULLS` over a frame. -/
def firstValue (column : α → Option γ) (frame : List α) : Option γ :=
  (frame.filterMap column).head?

private theorem filterMap_ne_nil {column : α → Option γ} {frame : List α} :
    frame.filterMap column ≠ [] ↔ ∃ x ∈ frame, (column x).isSome = true := by
  simp [Option.isSome_iff_ne_none]

theorem lastValue_isSome {column : α → Option γ} {frame : List α} :
    (lastValue column frame).isSome = true ↔ ∃ x ∈ frame, (column x).isSome = true := by
  rw [lastValue, List.getLast?_isSome, filterMap_ne_nil]

theorem firstValue_isSome {column : α → Option γ} {frame : List α} :
    (firstValue column frame).isSome = true ↔ ∃ x ∈ frame, (column x).isSome = true := by
  rw [firstValue, List.isSome_head?, filterMap_ne_nil]

section Windowed

variable [DecidableEq κ] [LinearOrder β]

/-- The rows of one partition in their order. -/
def ordered (part : α → κ) (ord : α → β) (k : κ) (rows : List α) : List α :=
  (partition part k rows).insertionSort fun x y => ord x ≤ ord y

/-- Every row with what is around it in its part, in order. -/
def windowed (part : α → κ) (ord : α → β) (rows : List α) : List (Frame α) :=
  (rows.map part).dedup.flatMap fun k => framesFrom [] (ordered part ord k rows)

variable {part : α → κ} {ord : α → β} {rows members before : List α} {w : Frame α} {r : α} {k : κ}

@[simp] theorem mem_ordered (part : α → κ) (ord : α → β) :
    r ∈ ordered part ord k rows ↔ r ∈ rows ∧ part r = k := by
  simp [ordered]

theorem mem_framesFrom : w ∈ framesFrom before members ↔ ∃ xs ys, members = xs ++ w.row :: ys ∧
    w.preceding = before ++ xs ++ [w.row] ∧ w.following = w.row :: ys := by
  induction members generalizing before with
  | nil => simp [framesFrom]
  | cons r after ih =>
      rw [framesFrom, List.mem_cons, ih]
      constructor
      · rintro (rfl | ⟨xs, ys, rfl, preceding, following⟩)
        · exact ⟨[], after, rfl, by simp, rfl⟩
        · exact ⟨r :: xs, ys, rfl, by simpa using preceding, following⟩
      · rintro ⟨xs, ys, split, preceding, following⟩
        cases xs with
        | nil =>
            obtain ⟨hrow, rfl⟩ := List.cons.inj split
            refine .inl ?_
            cases w
            simp_all
        | cons x xs =>
            obtain ⟨rfl, rfl⟩ := List.cons.inj split
            exact .inr ⟨xs, ys, rfl, by simpa using preceding, following⟩

/-- The two frames of a row are the halves of its ordered partition. -/
theorem mem_windowed : w ∈ windowed part ord rows ↔ ∃ xs ys,
    ordered part ord (part w.row) rows = xs ++ w.row :: ys ∧
      w.preceding = xs ++ [w.row] ∧ w.following = w.row :: ys := by
  have member : ∀ {k xs ys}, ordered part ord k rows = xs ++ w.row :: ys →
      w.row ∈ rows ∧ part w.row = k := by
    intro k xs ys split
    rw [← mem_ordered part ord, split]
    exact List.mem_append_right _ List.mem_cons_self
  rw [windowed, List.mem_flatMap]
  constructor
  · rintro ⟨k, _, hw⟩
    obtain ⟨xs, ys, split, preceding, following⟩ := mem_framesFrom.mp hw
    obtain ⟨_, rfl⟩ := member split
    exact ⟨xs, ys, split, preceding, following⟩
  · rintro ⟨xs, ys, split, preceding, following⟩
    refine ⟨part w.row, ?_, mem_framesFrom.mpr ⟨xs, ys, split, preceding, following⟩⟩
    exact List.mem_dedup.mpr (List.mem_map_of_mem (member split).1)

/-- Every row has its frames, and only the rows have. -/
theorem exists_windowed (part : α → κ) (ord : α → β) :
    (∃ w ∈ windowed part ord rows, w.row = r) ↔ r ∈ rows := by
  constructor
  · rintro ⟨w, hw, rfl⟩
    obtain ⟨xs, ys, split, _⟩ := mem_windowed.mp hw
    have : w.row ∈ ordered part ord (part w.row) rows := by
      rw [split]
      exact List.mem_append_right _ List.mem_cons_self
    exact ((mem_ordered part ord).mp this).1
  · intro hr
    obtain ⟨xs, ys, split⟩ := List.append_of_mem ((mem_ordered part ord).mpr ⟨hr, rfl⟩)
    exact ⟨⟨xs ++ [r], r, r :: ys⟩, mem_windowed.mpr ⟨xs, ys, split, rfl, rfl⟩, rfl⟩

/-- The two fills take a value of the partition. -/
theorem fill_eq_some (column : α → Option γ) (hw : w ∈ windowed part ord rows) {v : γ}
    (h : (lastValue column w.preceding).or (firstValue column w.following) = some v) :
    ∃ x ∈ rows, part x = part w.row ∧ column x = some v := by
  obtain ⟨xs, ys, split, preceding, following⟩ := mem_windowed.mp hw
  have members : ∀ x, x ∈ w.preceding ∨ x ∈ w.following → x ∈ rows ∧ part x = part w.row := by
    intro x hx
    rw [← mem_ordered part ord, split]
    simp only [preceding, following, List.mem_append, List.mem_cons, List.not_mem_nil,
      or_false] at hx ⊢
    tauto
  rcases Option.or_eq_some_iff.mp h with hlast | ⟨_, hfirst⟩
  · obtain ⟨x, hx, hv⟩ := List.mem_filterMap.mp (List.mem_of_getLast? hlast)
    exact ⟨x, (members x (.inl hx)).1, (members x (.inl hx)).2, hv⟩
  · obtain ⟨x, hx, hv⟩ := List.mem_filterMap.mp (List.mem_of_head? hfirst)
    exact ⟨x, (members x (.inr hx)).1, (members x (.inr hx)).2, hv⟩

/-- The two fills find a value for a row exactly when its partition has one. -/
theorem fill_isSome (column : α → Option γ) (hw : w ∈ windowed part ord rows) :
    ((lastValue column w.preceding).or (firstValue column w.following)).isSome = true ↔
      ∃ x ∈ rows, part x = part w.row ∧ (column x).isSome = true := by
  obtain ⟨xs, ys, split, preceding, following⟩ := mem_windowed.mp hw
  have members : ∀ x, (x ∈ w.preceding ∨ x ∈ w.following) ↔ x ∈ rows ∧ part x = part w.row := by
    intro x
    rw [← mem_ordered part ord, split, preceding, following]
    simp only [List.mem_append, List.mem_cons, List.not_mem_nil, or_false]
    tauto
  rw [Option.isSome_or, Bool.or_eq_true, lastValue_isSome, firstValue_isSome, ← exists_or]
  refine exists_congr fun x => ?_
  rw [← or_and_right, members, and_assoc]

/-- The frames are those of the rows, one for each. -/
theorem windowed_perm (part : α → κ) (ord : α → β) (rows : List α) :
    ((windowed part ord rows).map Frame.row).Perm rows := by
  have unframed : ∀ members before : List α,
      (framesFrom before members).map Frame.row = members := by
    intro members
    induction members with
    | nil => exact fun _ => rfl
    | cons r after ih => exact fun before => congrArg (r :: ·) (ih (before ++ [r]))
  have members : ((windowed part ord rows).map Frame.row) =
      (rows.map part).dedup.flatMap fun k => ordered part ord k rows := by
    rw [windowed, List.map_flatMap]
    simp only [unframed]
  have grouped : ((rows.map part).dedup.flatMap fun k => partition part k rows) =
      (groups part rows).flatMap Prod.snd := by
    rw [groups, List.flatMap_map]
  rw [members]
  refine .trans (.flatMap_left _ fun k _ => List.perm_insertionSort _ _) ?_
  rw [grouped]
  exact groups_perm part rows

section Fill

variable {column : α → Option γ} {x : α} {v : γ}

/-- Along an increasing list the first value is that of the smallest row that has one. -/
private theorem findSome?_increasing {β : Type*} [LinearOrder β] (ord : α → β) {frame : List α}
    (increasing : frame.Pairwise fun x y => ord x < ord y) :
    frame.findSome? column = some v ↔ ∃ x ∈ frame, column x = some v ∧
      ∀ y ∈ frame, column y ≠ none → ord x ≤ ord y := by
  rw [List.findSome?_eq_some_iff]
  constructor
  · rintro ⟨before, x, after, rfl, hx, empty⟩
    refine ⟨x, by simp, hx, fun y hy hne => ?_⟩
    rcases List.mem_append.mp hy with hbefore | hafter
    · exact absurd (empty y hbefore) hne
    · rcases List.mem_cons.mp hafter with rfl | hafter
      · exact le_refl _
      · obtain ⟨_, increasing, _⟩ := List.pairwise_append.mp increasing
        exact ((List.pairwise_cons.mp increasing).1 y hafter).le
  · rintro ⟨x, hmem, hx, first⟩
    obtain ⟨before, after, rfl⟩ := List.append_of_mem hmem
    refine ⟨before, x, after, rfl, hx, fun y hy => ?_⟩
    by_contra hne
    have earlier : ord y < ord x :=
      (List.pairwise_append.mp increasing).2.2 y hy x List.mem_cons_self
    exact absurd (first y (List.mem_append_left _ hy) hne) (not_le.mpr earlier)

/-- With distinct positions the rows of a partition increase strictly. -/
theorem ordered_increasing (distinct : (rows.map fun x => (part x, ord x)).Nodup) (k : κ) :
    (ordered part ord k rows).Pairwise fun x y => ord x < ord y := by
  have sorted : (ordered part ord k rows).Pairwise fun x y => ord x ≤ ord y :=
    List.pairwise_insertionSort _ _
  have nodup : (ordered part ord k rows).Nodup :=
    (List.perm_insertionSort _ _).nodup_iff.mpr (distinct.of_map.filter _)
  refine List.Pairwise.imp_of_mem ?_ (sorted.and nodup)
  rintro x y hx hy ⟨hle, hne⟩
  obtain ⟨hx, hxk⟩ := (mem_ordered part ord).mp hx
  obtain ⟨hy, hyk⟩ := (mem_ordered part ord).mp hy
  refine hle.lt_of_ne fun same => hne ?_
  exact List.inj_on_of_nodup_map distinct hx hy (Prod.ext (hxk.trans hyk.symm) same)

/-- The two frames of a row at distinct positions: what is not after it, and what is not
before it. -/
theorem mem_frames (distinct : (rows.map fun x => (part x, ord x)).Nodup)
    (hw : w ∈ windowed part ord rows) :
    (x ∈ w.preceding ↔ x ∈ rows ∧ part x = part w.row ∧ ord x ≤ ord w.row) ∧
      (x ∈ w.following ↔ x ∈ rows ∧ part x = part w.row ∧ ord w.row ≤ ord x) := by
  obtain ⟨xs, ys, split, preceding, following⟩ := mem_windowed.mp hw
  have increasing := ordered_increasing distinct (part w.row)
  rw [split, List.pairwise_append, List.pairwise_cons] at increasing
  obtain ⟨_, ⟨after, _⟩, before⟩ := increasing
  have before : ∀ z ∈ xs, ord z < ord w.row := fun z hz => before z hz _ List.mem_cons_self
  rw [← and_assoc, ← and_assoc, ← mem_ordered part ord, split, preceding, following]
  simp only [List.mem_append, List.mem_cons, List.not_mem_nil, or_false]
  constructor
  · constructor
    · rintro (hx | rfl)
      · exact ⟨.inl hx, (before x hx).le⟩
      · exact ⟨.inr (.inl rfl), le_refl _⟩
    · rintro ⟨hx | rfl | hx, hle⟩
      · exact .inl hx
      · exact .inr rfl
      · exact absurd hle (not_le.mpr (after x hx))
  · constructor
    · rintro (rfl | hx)
      · exact ⟨.inr (.inl rfl), le_refl _⟩
      · exact ⟨.inr (.inr hx), (after x hx).le⟩
    · rintro ⟨hx | rfl | hx, hle⟩
      · exact absurd hle (not_le.mpr (before x hx))
      · exact .inl rfl
      · exact .inr hx

/-- The last value up to a row is that of the greatest position not after it. -/
theorem lastValue_preceding (distinct : (rows.map fun x => (part x, ord x)).Nodup)
    (hw : w ∈ windowed part ord rows) : lastValue column w.preceding = some v ↔
      ∃ x ∈ rows, part x = part w.row ∧ ord x ≤ ord w.row ∧ column x = some v ∧
        ∀ y ∈ rows, part y = part w.row → ord y ≤ ord w.row → column y ≠ none →
          ord y ≤ ord x := by
  obtain ⟨xs, ys, split, preceding, _⟩ := mem_windowed.mp hw
  have increasing : w.preceding.Pairwise fun x y => ord x < ord y := by
    have := ordered_increasing distinct (part w.row)
    rw [split, List.append_cons, ← preceding] at this
    exact (List.pairwise_append.mp this).1
  have decreasing := List.pairwise_reverse.mpr increasing
  rw [lastValue, List.getLast?_filterMap,
    findSome?_increasing (fun x => OrderDual.toDual (ord x)) decreasing]
  simp only [List.mem_reverse, (mem_frames distinct hw).1, OrderDual.toDual_le_toDual, and_assoc,
    and_imp]

/-- The first value from a row on is that of the smallest position not before it. -/
theorem firstValue_following (distinct : (rows.map fun x => (part x, ord x)).Nodup)
    (hw : w ∈ windowed part ord rows) : firstValue column w.following = some v ↔
      ∃ x ∈ rows, part x = part w.row ∧ ord w.row ≤ ord x ∧ column x = some v ∧
        ∀ y ∈ rows, part y = part w.row → ord w.row ≤ ord y → column y ≠ none →
          ord x ≤ ord y := by
  obtain ⟨xs, ys, split, _, following⟩ := mem_windowed.mp hw
  have increasing : w.following.Pairwise fun x y => ord x < ord y := by
    have := ordered_increasing distinct (part w.row)
    rw [split, ← following] at this
    exact (List.pairwise_append.mp this).2.1
  rw [firstValue, List.head?_filterMap, findSome?_increasing ord increasing]
  simp only [(mem_frames distinct hw).2, and_assoc, and_imp]

end Fill

end Windowed

end PaymentsPlatform.Sql
