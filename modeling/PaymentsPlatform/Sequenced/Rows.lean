import PaymentsPlatform.Sequenced.Cell

/-!
# The rows of a key

Where nothing keeps a key unique it has any number of rows, and a row may have no token. A
change then replaces or removes every row whose token is older than its own, a row without a
token never, and it is written as a new row only where the key has none.

Of a group of changes only the last one is applied. How the changes are grouped decides which
of them are applied, and the last change of all always is. `settled_iff` says when the others
can be applied in front of it without a trace, and `run_lasts_of_settled` that the grouping
does not matter then.
-/

namespace PaymentsPlatform.Sequenced

variable {ι α : Type*}

/-- The rows of one key, each with the token it was written under, if it has one. -/
abbrev Rows (ι α : Type*) := List (Option ι × α)

/-- The row that a change writes. -/
def Change.row (e : Change ι α) : Option (Option ι × α) := e.value.map fun a => (some e.token, a)

variable [LinearOrder ι]

/-- The row has a token older than `t`. -/
def Outdated (t : ι) (r : Option ι × α) : Prop := ∃ s ∈ r.1, s < t

instance Outdated.decidable (t : ι) (r : Option ι × α) : Decidable (Outdated t r) :=
  inferInstanceAs (Decidable (∃ s ∈ r.1, s < t))

/-- What a change makes of a row. -/
def Change.replace (e : Change ι α) (r : Option ι × α) : Option (Option ι × α) :=
  if Outdated e.token r then e.row else some r

namespace Rows

/-- Apply one change under the sequence guard. -/
def apply (rows : Rows ι α) (e : Change ι α) : Rows ι α :=
  if rows = [] then e.row.toList else rows.filterMap e.replace

/-- Apply changes from left to right. -/
def run (rows : Rows ι α) (es : List (Change ι α)) : Rows ι α := es.foldl apply rows

/-- The changes before `last` leave no trace. Either there are rows, and none is older than
`last`; or the writes under the token of `last` are its own write, and, where there are
several rows to be replaced by it, no removal is newer than one of them. -/
def Settled (rows : Rows ι α) (es : List (Change ι α)) (last : Change ι α) : Prop :=
  (rows ≠ [] ∧ ∀ r ∈ rows, ¬Outdated last.token r) ∨
    (∀ e ∈ es, e.token = last.token → e.value ≠ none → e.value = last.value) ∧
      (rows.length ≤ 1 ∨ last.value = none ∨
        ∀ r ∈ rows, ∀ d ∈ es, d.value = none → ¬Outdated d.token r)

end Rows

variable {rows : Rows ι α} {e last : Change ι α} {es : List (Change ι α)} {r : Option ι × α}

omit [LinearOrder ι] in
theorem Change.row_eq_none : e.row = none ↔ e.value = none := Option.map_eq_none_iff

omit [LinearOrder ι] in
theorem Change.value_of_row (h : e.row = some r) : e.value = some r.2 := by
  obtain ⟨a, ha, rfl⟩ := Option.map_eq_some_iff.mp h
  exact ha

theorem Outdated.mono {t t' : ι} (h : Outdated t r) (hle : t ≤ t') : Outdated t' r := by
  obtain ⟨s, hs, hlt⟩ := h
  exact ⟨s, hs, hlt.trans_le hle⟩

/-- A row is older than what is newer than the change that wrote it. -/
theorem outdated_of_row {t : ι} (h : e.row = some r) : Outdated t r ↔ e.token < t := by
  obtain ⟨a, -, rfl⟩ := Option.map_eq_some_iff.mp h
  simp [Outdated]

/-- What is written in front of a change that is as new, and that writes the same if it is no
newer, is not seen behind it. -/
theorem replace_of_row (newest : e.token ≤ last.token)
    (ties : e.token = last.token → e.value ≠ none → e.value = last.value)
    (h : e.row = some r) : last.replace r = last.row := by
  unfold Change.replace
  split
  · rfl
  · rename_i tied
    have token : e.token = last.token :=
      le_antisymm newest (not_lt.mp ((outdated_of_row h).not.mp tied))
    have write : e.value ≠ none := fun none => by
      rw [Change.row_eq_none.mpr none] at h
      cases h
    rw [← h, Change.row, Change.row, ties token write, token]

/-- A row that such a change does not remove becomes what it does without the change. -/
theorem replace_replace {r' : Option ι × α} (newest : e.token ≤ last.token)
    (ties : e.token = last.token → e.value ≠ none → e.value = last.value)
    (h : e.replace r = some r') : last.replace r' = last.replace r := by
  unfold Change.replace at h
  split at h
  · rename_i outdated
    rw [replace_of_row newest ties h, Change.replace, if_pos (outdated.mono newest)]
  · rw [Option.some.inj h]

namespace Rows

@[simp] theorem run_nil : rows.run [] = rows := rfl

@[simp] theorem run_cons : rows.run (e :: es) = (rows.apply e).run es := rfl

@[simp] theorem apply_nil (e : Change ι α) : apply [] e = e.row.toList := if_pos rfl

theorem apply_of_ne_nil (h : rows ≠ []) (e : Change ι α) :
    rows.apply e = rows.filterMap e.replace := if_neg h

theorem apply_singleton (r : Option ι × α) (e : Change ι α) :
    apply [r] e = (e.replace r).toList := by
  rw [apply_of_ne_nil (by simp), List.filterMap_cons, List.filterMap_nil]
  cases e.replace r <;> rfl

theorem replace_of_current (h : ∀ r ∈ rows, ¬Outdated e.token r) :
    rows.filterMap e.replace = rows := by
  have kept : ∀ r ∈ rows, e.replace r = some r := fun r hr => if_neg (h r hr)
  rw [List.filterMap_congr kept, List.filterMap_some]

/-- Rows of which none is older than a change stay. -/
theorem apply_of_current (occupied : rows ≠ []) (h : ∀ r ∈ rows, ¬Outdated e.token r) :
    rows.apply e = rows := by
  rw [apply_of_ne_nil occupied, replace_of_current h]

theorem mem_replace {r' : Option ι × α} (h : r' ∈ rows.filterMap e.replace) :
    (r' ∈ rows ∧ ¬Outdated e.token r') ∨ e.row = some r' ∧ ∃ r ∈ rows, Outdated e.token r := by
  obtain ⟨r, hr, hreplace⟩ := List.mem_filterMap.mp h
  unfold Change.replace at hreplace
  split at hreplace
  · rename_i outdated
    exact .inr ⟨hreplace, r, hr, outdated⟩
  · rename_i ahead
    obtain rfl := Option.some.inj hreplace
    exact .inl ⟨hr, ahead⟩

/-- A write keeps the number of rows. -/
theorem length_replace (write : e.value ≠ none) :
    (rows.filterMap e.replace).length = rows.length := by
  refine List.filterMap_length_eq_length.mpr fun r _ => ?_
  obtain ⟨x, hx⟩ := Option.ne_none_iff_exists'.mp (Change.row_eq_none.not.mpr write)
  unfold Change.replace
  split
  · rw [hx]
    rfl
  · rfl

/-- A change and a later one make of the rows what the later one does, when nothing is
removed between them. -/
theorem replace_concat (newest : e.token ≤ last.token)
    (ties : e.token = last.token → e.value ≠ none → e.value = last.value)
    (unremoved : e.value ≠ none ∨ last.value = none) :
    (rows.filterMap e.replace).filterMap last.replace = rows.filterMap last.replace := by
  rw [List.filterMap_filterMap]
  refine List.filterMap_congr fun r _ => ?_
  cases h : e.replace r with
  | some r' => exact replace_replace newest ties h
  | none =>
      -- the row is removed, so that the later change removes it as well
      unfold Change.replace at h
      split at h
      · rename_i outdated
        have removed : last.value = none :=
          unremoved.resolve_left (not_not.mpr (Change.row_eq_none.mp h))
        rw [Change.replace, if_pos (outdated.mono newest), Change.row_eq_none.mpr removed]
        rfl
      · cases h

/-- A removal inserts nothing. -/
theorem apply_of_removal (removal : e.value = none) : rows.apply e = rows.filterMap e.replace := by
  by_cases empty : rows = []
  · rw [empty, apply_nil, Change.row_eq_none.mpr removal]
    rfl
  · exact apply_of_ne_nil empty e

/-- A change in front of the last one does not show where the rows are settled. -/
theorem apply_apply_of_settled (settled : rows.Settled es last) (he : e ∈ es)
    (newest : e.token ≤ last.token) : (rows.apply e).apply last = rows.apply last := by
  rcases settled with ⟨occupied, ahead⟩ | ⟨ties, several⟩
  · rw [apply_of_current occupied fun r hr outdated => ahead r hr (outdated.mono newest)]
  · by_cases empty : rows = []
    · rw [empty, apply_nil, apply_nil]
      cases hrow : e.row with
      | none => exact apply_nil last
      | some r =>
          rw [Option.toList_some, apply_singleton, replace_of_row newest (ties e he) hrow]
    · by_cases write : e.value = none
      · rcases several with single | removal | kept
        · obtain ⟨r, rfl⟩ := List.length_eq_one_iff.mp
            (le_antisymm single (List.length_pos_iff.mpr empty))
          by_cases outdated : Outdated e.token r
          · rw [apply_singleton, apply_singleton, Change.replace, Change.replace, if_pos outdated,
              if_pos (outdated.mono newest), Change.row_eq_none.mpr write]
            exact apply_nil last
          · rw [apply_of_current empty (List.forall_mem_singleton.mpr outdated)]
        · rw [apply_of_ne_nil empty, apply_of_removal removal, apply_of_removal removal,
            replace_concat newest (ties e he) (.inr removal)]
        · rw [apply_of_current empty fun r hr => kept r hr e he write]
      · have occupied : rows.filterMap e.replace ≠ [] := by
          rw [← List.length_pos_iff, length_replace write]
          exact List.length_pos_iff.mpr empty
        rw [apply_of_ne_nil empty, apply_of_ne_nil occupied, apply_of_ne_nil empty,
          replace_concat newest (ties e he) (.inl write)]

/-- Settled rows stay settled. -/
theorem Settled.apply (settled : rows.Settled es last) (he : e ∈ es)
    (newest : ∀ e ∈ es, e.token ≤ last.token) : (rows.apply e).Settled es last := by
  rcases settled with ⟨occupied, ahead⟩ | ⟨ties, several⟩
  · rw [apply_of_current occupied fun r hr outdated => ahead r hr (outdated.mono (newest e he))]
    exact .inl ⟨occupied, ahead⟩
  · refine .inr ⟨ties, ?_⟩
    by_cases empty : rows = []
    · rw [empty, apply_nil]
      exact .inl Option.length_toList_le
    · rw [apply_of_ne_nil empty]
      refine several.imp (fun single => (List.length_filterMap_le _ _).trans single)
        (Or.imp_right fun kept r hr d hd removal outdated => ?_)
      rcases mem_replace hr with ⟨hr, _⟩ | ⟨hrow, r₀, hr₀, hold⟩
      · exact kept r hr d hd removal outdated
      · -- the removal is newer than the change, and so than the row that it replaced
        exact kept r₀ hr₀ d hd removal (hold.mono ((outdated_of_row hrow).mp outdated).le)

/-- In a run of changes over settled rows only the last one shows. -/
theorem run_concat_of_settled (settled : rows.Settled es last)
    (newest : ∀ e ∈ es, e.token ≤ last.token) {before : List (Change ι α)}
    (hbefore : ∀ e ∈ before, e ∈ es) : rows.run (before ++ [last]) = rows.apply last := by
  induction before generalizing rows with
  | nil => rfl
  | cons e before ih =>
      obtain ⟨he, hbefore⟩ := List.forall_mem_cons.mp hbefore
      rw [List.cons_append, run_cons, ih (settled.apply he newest) hbefore,
        apply_apply_of_settled settled he (newest e he)]

omit [LinearOrder ι] in
/-- Of the last changes of groups, the last one is the last change of all. -/
theorem lasts_eq_concat {groups : List (List (Change ι α))}
    (h : groups.flatten.getLast? = some e) :
    ∃ before, groups.filterMap List.getLast? = before ++ [e] ∧
      ∀ e' ∈ before, e' ∈ groups.flatten := by
  induction groups using List.reverseRecOn with
  | nil => cases h
  | append_singleton groups g ih =>
      rw [List.flatten_append, List.flatten_singleton] at h ⊢
      rw [List.filterMap_append]
      rcases List.eq_nil_or_concat' g with rfl | ⟨gs, x, rfl⟩
      · obtain ⟨before, hlasts, hmem⟩ := ih (by simpa using h)
        have skipped : [([] : List (Change ι α))].filterMap List.getLast? = [] := rfl
        rw [skipped, List.append_nil, List.append_nil]
        exact ⟨before, hlasts, hmem⟩
      · rw [← List.append_assoc, List.getLast?_concat] at h
        cases h
        refine ⟨groups.filterMap List.getLast?, by simp, fun e' he' => ?_⟩
        obtain ⟨g', hg', hlast⟩ := List.mem_filterMap.mp he'
        exact List.mem_append_left _ (List.mem_flatten.mpr ⟨g', hg', List.mem_of_getLast? hlast⟩)

/-- However changes are grouped, only the last one of all shows over settled rows. -/
theorem run_lasts_of_settled {groups : List (List (Change ι α))}
    (h : groups.flatten.getLast? = some last)
    (newest : ∀ e ∈ groups.flatten, e.token ≤ last.token)
    (settled : rows.Settled groups.flatten last) :
    rows.run (groups.filterMap List.getLast?) = rows.apply last := by
  obtain ⟨before, hlasts, hbefore⟩ := lasts_eq_concat h
  rw [hlasts]
  exact run_concat_of_settled settled newest hbefore

/-- The rows that are older than a change become its row, the others stay. -/
theorem replace_perm (rows : Rows ι α) (e : Change ι α) : (rows.filterMap e.replace).Perm
    ((rows.filter fun r => decide (Outdated e.token r)).filterMap (fun _ => e.row) ++
      rows.filter fun r => !decide (Outdated e.token r)) := by
  have replaced : (rows.filter fun r => decide (Outdated e.token r)).filterMap e.replace =
      (rows.filter fun r => decide (Outdated e.token r)).filterMap fun _ => e.row :=
    List.filterMap_congr fun r hr => if_pos (of_decide_eq_true (List.mem_filter.mp hr).2)
  have kept : (rows.filter fun r => !decide (Outdated e.token r)).filterMap e.replace =
      rows.filter fun r => !decide (Outdated e.token r) :=
    replace_of_current fun r hr => by simpa using (List.mem_filter.mp hr).2
  rw [← replaced, ← kept, ← List.filterMap_append]
  exact (List.filter_append_perm _ rows).symm.filterMap _

/-- Two writes under one token that leave the same of rows older than them are the same. -/
theorem row_eq_of_perm (token : e.token = last.token) (hrow : e.row = some r)
    (outdated : ∃ r ∈ rows, Outdated last.token r)
    (same : (rows.filterMap e.replace).Perm (rows.filterMap last.replace)) :
    last.row = some r := by
  have first := replace_perm rows e
  simp only [token] at first
  have replaced := (List.perm_append_right_iff _).mp
    ((first.symm.trans same).trans (replace_perm rows last))
  obtain ⟨r₀, hr₀, outdated⟩ := outdated
  have written : r ∈ (rows.filter fun r => decide (Outdated last.token r)).filterMap
      fun _ => e.row :=
    List.mem_filterMap.mpr ⟨r₀, List.mem_filter.mpr ⟨hr₀, decide_eq_true outdated⟩, hrow⟩
  obtain ⟨_, _, hlast⟩ := List.mem_filterMap.mp (replaced.mem_iff.mp written)
  exact hlast

/-- A write under the token of the last change is not replaced by it. -/
theorem apply_apply_of_tied (token : e.token = last.token) (write : e.value ≠ none) :
    (rows.apply e).apply last = rows.apply e := by
  obtain ⟨r, hr⟩ := Option.ne_none_iff_exists'.mp (Change.row_eq_none.not.mpr write)
  have ahead : ¬Outdated last.token r := fun outdated =>
    absurd token ((outdated_of_row hr).mp outdated).ne
  by_cases empty : rows = []
  · rw [empty, apply_nil, hr]
    exact apply_of_current (by simp) (List.forall_mem_singleton.mpr ahead)
  · rw [apply_of_ne_nil empty]
    refine apply_of_current ?_ fun r' hr' => ?_
    · rw [← List.length_pos_iff, length_replace write]
      exact List.length_pos_iff.mpr empty
    · rcases mem_replace hr' with ⟨_, ahead'⟩ | ⟨hrow, _⟩
      · exact token ▸ ahead'
      · obtain rfl := Option.some.inj (hr.symm.trans hrow)
        exact ahead

/-- A removal of one of several rows shows behind a write. -/
theorem not_perm_of_removal (several : 1 < rows.length) (write : last.value ≠ none)
    (removal : e.value = none) (outdated : ∃ r ∈ rows, Outdated e.token r) :
    ¬((rows.apply e).apply last).Perm (rows.apply last) := by
  intro same
  have lengths := same.length_eq
  have occupied : rows ≠ [] := List.ne_nil_of_length_pos (by omega)
  have fewer : (rows.filterMap e.replace).length < rows.length := by
    obtain ⟨r, hr, outdated⟩ := outdated
    refine List.length_filterMap_lt_length_iff_exists.mpr ⟨r, hr, ?_⟩
    rw [Change.replace, if_pos outdated, Change.row_eq_none.mpr removal]
  rw [apply_of_ne_nil occupied, apply_of_ne_nil occupied, length_replace write] at lengths
  by_cases gone : rows.filterMap e.replace = []
  · have one : last.row.toList.length ≤ 1 := Option.length_toList_le
    rw [gone, apply_nil] at lengths
    omega
  · rw [apply_of_ne_nil gone, length_replace write] at lengths
    omega

/-- The rows are settled exactly when no change in front of the last one shows. -/
theorem settled_iff (newest : ∀ e ∈ es, e.token ≤ last.token) : rows.Settled es last ↔
    ∀ e ∈ es, e ≠ last → ((rows.apply e).apply last).Perm (rows.apply last) := by
  constructor
  · intro settled e he _
    rw [apply_apply_of_settled settled he (newest e he)]
  · intro same
    by_cases ahead : rows ≠ [] ∧ ∀ r ∈ rows, ¬Outdated last.token r
    · exact .inl ahead
    · push Not at ahead
      refine .inr ⟨fun e he token write => ?_, ?_⟩
      · by_cases other : e = last
        · rw [other]
        · obtain ⟨r, hr⟩ := Option.ne_none_iff_exists'.mp (Change.row_eq_none.not.mpr write)
          have perm := same e he other
          rw [apply_apply_of_tied token write] at perm
          have written : last.row = some r := by
            by_cases empty : rows = []
            · rw [empty, apply_nil, apply_nil, hr] at perm
              exact Option.mem_toList.mp (perm.mem_iff.mp (List.mem_singleton_self r))
            · rw [apply_of_ne_nil empty, apply_of_ne_nil empty] at perm
              exact row_eq_of_perm token hr (ahead empty) perm
          rw [Change.value_of_row hr, Change.value_of_row written]
      · by_cases single : rows.length ≤ 1
        · exact .inl single
        · by_cases removal : last.value = none
          · exact .inr (.inl removal)
          · refine .inr (.inr fun r hr d hd removes outdated => ?_)
            have other : d ≠ last := fun h => removal (h ▸ removes)
            exact not_perm_of_removal (not_le.mp single) removal removes ⟨r, hr, outdated⟩
              (same d hd other)

end Rows

end PaymentsPlatform.Sequenced
