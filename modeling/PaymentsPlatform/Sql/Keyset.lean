import Mathlib

/-!
# Keyset pagination

A page is the first rows in the order of their keys behind a position, and the position
of the next page is the key of the last row, as long as there are more rows. A walk takes
its pages from one table after the other.

* `increasing_rows`: no key comes twice, and the keys increase.
* `mem_rows_of_ends`: a key that is in every table is in some page, once the walk ends.
* `isSome_position_const`, `rows_pages`: on a table that stays, the pages cut the ordered
  table.
-/

namespace PaymentsPlatform.Keyset

variable {α κ : Type*} [LinearOrder κ] (key : α → κ)

/-- The rows behind a position, in order. -/
def behind (after : Option κ) (table : List α) : List α :=
  (table.filter fun r => decide (∀ k ∈ after, k < key r)).insertionSort fun x y => key x ≤ key y

/-- A page. -/
def page (limit : Nat) (after : Option κ) (table : List α) : List α :=
  (behind key after table).take limit

/-- The position of the next page, when there are more rows than the page has. -/
def next (limit : Nat) (after : Option κ) (table : List α) : Option κ :=
  if limit < (behind key after table).length then
    ((page key limit after table).getLast?).map key
  else none

variable (limit : Nat) (tables : Nat → List α)

/-- The position of a page of a walk, as long as the walk has not ended. -/
def position : Nat → Option (Option κ)
  | 0 => some none
  | i + 1 => (position i).bind fun after => (next key limit after (tables i)).map some

/-- The rows of a page of a walk. -/
def rowsAt (i : Nat) : List α :=
  ((position key limit tables i).map fun after => page key limit after (tables i)).getD []

/-- The rows of the first pages. -/
def rows (n : Nat) : List α := (List.range n).flatMap (rowsAt key limit tables)

variable {key limit tables} {table : List α} {after : Option κ} {k : κ} {r : α} {n : Nat}

@[simp] theorem mem_behind : r ∈ behind key after table ↔ r ∈ table ∧ ∀ k ∈ after, k < key r := by
  simp [behind]

/-- Rows with distinct keys are in strict order. -/
theorem increasing_behind (distinct : (table.map key).Nodup) (after : Option κ) :
    (behind key after table).Pairwise fun x y => key x < key y := by
  have sorted : (behind key after table).Pairwise fun x y => key x ≤ key y :=
    List.pairwise_insertionSort _ _
  have kept : ((behind key after table).map key).Nodup :=
    ((List.perm_insertionSort _ _).map key).nodup_iff.mpr
      (distinct.sublist (List.filter_sublist.map key))
  have apart : (behind key after table).Pairwise fun x y => key x ≠ key y :=
    List.pairwise_map.mp kept
  exact (sorted.and apart).imp fun h => lt_of_le_of_ne h.1 h.2

/-- The last row of a list in order has the greatest key. -/
theorem le_getLast {xs : List α} (increasing : xs.Pairwise fun x y => key x < key y)
    (hlast : xs.getLast?.map key = some k) : ∀ x ∈ xs, key x ≤ k := by
  induction xs using List.reverseRecOn with
  | nil => simp
  | append_singleton xs last _ =>
      rw [List.getLast?_concat, Option.map_some, Option.some.injEq] at hlast
      intro x hx
      rcases List.mem_append.mp hx with hx | hx
      · exact ((List.pairwise_append.mp increasing).2.2 x hx last (by simp)).le.trans hlast.le
      · rw [List.mem_singleton.mp hx]
        exact hlast.le

/-- The next position is behind this one, no row of the page is behind it, and every row
that is behind this one but not the next is in the page. -/
theorem next_spec (distinct : (table.map key).Nodup)
    (hnext : next key limit after table = some k) :
    (∀ a ∈ after, a < k) ∧ (∀ r ∈ page key limit after table, key r ≤ k) ∧
      ∀ r ∈ table, (∀ a ∈ after, a < key r) → key r ≤ k → r ∈ page key limit after table := by
  unfold next at hnext
  split at hnext
  · have split := List.take_append_drop limit (behind key after table)
    have ordered := split ▸ increasing_behind distinct after
    obtain ⟨first, _, across⟩ := List.pairwise_append.mp ordered
    obtain ⟨last, hlast, rfl⟩ := Option.map_eq_some_iff.mp hnext
    have hmem : last ∈ page key limit after table := List.mem_of_getLast? hlast
    refine ⟨(mem_behind.mp (List.mem_of_mem_take hmem)).2, le_getLast first hnext,
      fun r hr hbehind hle => ?_⟩
    have hr : r ∈ behind key after table := mem_behind.mpr ⟨hr, hbehind⟩
    rw [← split] at hr
    refine (List.mem_append.mp hr).resolve_right fun later => ?_
    exact absurd hle (not_le.mpr (across last hmem r later))
  · cases hnext

/-- The last page has every row that is behind its position. -/
theorem page_of_next_eq_none (positive : 1 ≤ limit) (hnext : next key limit after table = none) :
    page key limit after table = behind key after table := by
  unfold next at hnext
  split at hnext
  · rename_i more
    have nonempty : page key limit after table ≠ [] := by
      rw [page, ← List.length_pos_iff, List.length_take]
      omega
    rw [Option.map_eq_none_iff, List.getLast?_eq_none_iff] at hnext
    exact absurd hnext nonempty
  · rename_i most
    exact List.take_of_length_le (not_lt.mp most)

theorem position_succ : position key limit tables (n + 1) = some after ↔
    ∃ before k, position key limit tables n = some before ∧
      next key limit before (tables n) = some k ∧ after = some k := by
  simp only [position, Option.bind_eq_some_iff, Option.map_eq_some_iff]
  constructor
  · rintro ⟨before, hbefore, k, hk, rfl⟩
    exact ⟨before, k, hbefore, hk, rfl⟩
  · rintro ⟨before, k, hbefore, hk, rfl⟩
    exact ⟨before, hbefore, k, hk, rfl⟩

theorem rowsAt_of_position (h : position key limit tables n = some after) :
    rowsAt key limit tables n = page key limit after (tables n) := by
  rw [rowsAt, h]
  rfl

theorem rows_succ (key : α → κ) (limit : Nat) (tables : Nat → List α) (n : Nat) :
    rows key limit tables (n + 1) = rows key limit tables n ++ rowsAt key limit tables n := by
  simp [rows, List.range_succ]

section Walk

variable (distinct : ∀ i, ((tables i).map key).Nodup)

include distinct

/-- The rows of the first pages are in strict order, up to the position of the next. -/
theorem increasing_rows (n : Nat) :
    ((rows key limit tables n).Pairwise fun x y => key x < key y) ∧
      ∀ after, position key limit tables n = some after →
        ∀ r ∈ rows key limit tables n, ∃ a ∈ after, key r ≤ a := by
  induction n with
  | zero => exact ⟨List.Pairwise.nil, fun _ _ r hr => by cases hr⟩
  | succ n ih =>
      obtain ⟨ordered, bounded⟩ := ih
      rw [rows_succ]
      cases hposition : position key limit tables n with
      | none =>
          have none : rowsAt key limit tables n = [] := by rw [rowsAt, hposition]; rfl
          rw [none, List.append_nil]
          refine ⟨ordered, fun after h => ?_⟩
          rw [position, hposition] at h
          cases h
      | some before =>
          have hrows := rowsAt_of_position hposition
          have across : ∀ x ∈ rows key limit tables n, ∀ y ∈ rowsAt key limit tables n,
              key x < key y := by
            intro x hx y hy
            obtain ⟨a, ha, hle⟩ := bounded before hposition x hx
            rw [hrows] at hy
            exact hle.trans_lt ((mem_behind.mp (List.mem_of_mem_take hy)).2 a ha)
          have pageOrdered : (rowsAt key limit tables n).Pairwise fun x y => key x < key y :=
            hrows ▸ (increasing_behind (distinct n) before).sublist (List.take_sublist _ _)
          refine ⟨List.pairwise_append.mpr ⟨ordered, pageOrdered, across⟩, fun after h => ?_⟩
          obtain ⟨before', k, hbefore', hk, rfl⟩ := position_succ.mp h
          obtain rfl := Option.some.inj (hposition.symm.trans hbefore')
          obtain ⟨later, inPage, _⟩ := next_spec (distinct n) hk
          intro r hr
          refine ⟨k, rfl, ?_⟩
          rcases List.mem_append.mp hr with hr | hr
          · obtain ⟨a, ha, hle⟩ := bounded before hposition r hr
            exact hle.trans (later a ha).le
          · exact inPage r (hrows ▸ hr)

/-- No key comes twice. -/
theorem nodup_rows (n : Nat) : ((rows key limit tables n).map key).Nodup :=
  List.pairwise_map.mpr ((increasing_rows distinct n).1.imp fun h => h.ne)

/-- A key that is in every table so far, and not behind the position, has been in a page. -/
theorem mem_rows_of_position {n : Nat} (h : position key limit tables n = some after)
    (present : ∀ i < n, k ∈ (tables i).map key) (passed : ∃ a ∈ after, k ≤ a) :
    k ∈ (rows key limit tables n).map key := by
  induction n generalizing after with
  | zero =>
      obtain rfl := Option.some.inj h
      obtain ⟨a, ha, _⟩ := passed
      cases ha
  | succ n ih =>
      obtain ⟨before, next, hbefore, hnext, rfl⟩ := position_succ.mp h
      obtain ⟨a, ha, hle⟩ := passed
      obtain rfl := Option.some.inj ha
      rw [rows_succ, List.map_append, List.mem_append]
      by_cases earlier : ∃ a ∈ before, k ≤ a
      · exact .inl (ih hbefore (fun i hi => present i (Nat.lt_succ_of_lt hi)) earlier)
      · obtain ⟨r, hr, rfl⟩ := List.mem_map.mp (present n (Nat.lt_succ_self n))
        refine .inr (List.mem_map_of_mem ?_)
        rw [rowsAt_of_position hbefore]
        refine (next_spec (distinct n) hnext).2.2 r hr (fun a ha => ?_) hle
        exact not_le.mp fun hle => earlier ⟨a, ha, hle⟩

/-- When the walk ends, every key that is in all of its tables has been in a page. -/
theorem mem_rows_of_ends (positive : 1 ≤ limit) (h : position key limit tables n = some after)
    (ends : next key limit after (tables n) = none)
    (present : ∀ i ≤ n, k ∈ (tables i).map key) : k ∈ (rows key limit tables (n + 1)).map key := by
  rw [rows_succ, List.map_append, List.mem_append]
  by_cases passed : ∃ a ∈ after, k ≤ a
  · exact .inl (mem_rows_of_position distinct h (fun i hi => present i hi.le) passed)
  · obtain ⟨r, hr, rfl⟩ := List.mem_map.mp (present n le_rfl)
    refine .inr (List.mem_map_of_mem ?_)
    rw [rowsAt_of_position h, page_of_next_eq_none positive ends]
    exact mem_behind.mpr ⟨hr, fun a ha => not_le.mp fun hle => passed ⟨a, ha, hle⟩⟩

end Walk

section Constant

/-- The rows in order. -/
def ordered (key : α → κ) (table : List α) : List α := behind key none table

/-- The number of pages of so many rows; there is one page without rows. -/
def pages (limit count : Nat) : Nat := max 1 (count ⌈/⌉ limit)

theorem ordered_eq (key : α → κ) (table : List α) :
    ordered key table = table.insertionSort fun x y => key x ≤ key y := by
  simp [ordered, behind]

@[simp] theorem length_ordered (key : α → κ) (table : List α) :
    (ordered key table).length = table.length := by
  rw [ordered_eq, List.length_insertionSort]

theorem lt_pages (positive : 1 ≤ limit) {count : Nat} :
    n < pages limit count ↔ n = 0 ∨ n * limit < count := by
  have covered : count ⌈/⌉ limit ≤ n ↔ count ≤ limit * n := ceilDiv_le_iff_le_mul positive
  rw [pages, lt_max_iff, Nat.lt_one_iff, ← not_le, covered, not_le, Nat.mul_comm]

/-- The pages have room for all rows. -/
theorem le_pages_mul (positive : 1 ≤ limit) (count : Nat) : count ≤ pages limit count * limit := by
  by_contra more
  exact lt_irrefl _ ((lt_pages positive).mpr (.inr (not_le.mp more)))

variable (distinct : (table.map key).Nodup)

include distinct

/-- Ordering the rows behind a position leaves those behind it of the ordered rows. -/
theorem behind_eq_filter (after : Option κ) : behind key after table =
    (ordered key table).filter fun r => decide (∀ k ∈ after, k < key r) := by
  have left := increasing_behind distinct after
  have right : ((ordered key table).filter fun r => decide (∀ k ∈ after, k < key r)).Pairwise
      fun x y => key x < key y := (increasing_behind distinct none).sublist List.filter_sublist
  have : Std.Irrefl fun x y : α => key x < key y := ⟨fun x => lt_irrefl (key x)⟩
  have : Std.Antisymm fun x y : α => key x < key y := ⟨fun x y h h' => absurd h (lt_asymm h')⟩
  refine List.Pairwise.eq_of_mem_iff left right fun r => ?_
  simp [ordered]

/-- Behind the last of the first rows are the others. -/
theorem behind_getLast {m : Nat}
    (hlast : ((ordered key table).take m).getLast?.map key = some k) :
    behind key (some k) table = (ordered key table).drop m := by
  have split := List.take_append_drop m (ordered key table)
  have increasing : (ordered key table).Pairwise fun x y => key x < key y :=
    increasing_behind distinct none
  rw [← split] at increasing
  obtain ⟨first, _, across⟩ := List.pairwise_append.mp increasing
  obtain ⟨last, hmem, rfl⟩ := Option.map_eq_some_iff.mp hlast
  have before : ((ordered key table).take m).filter (fun r => decide (key last < key r)) = [] :=
    List.filter_eq_nil_iff.mpr fun r hr => by simpa using le_getLast first hlast r hr
  have later : ((ordered key table).drop m).filter (fun r => decide (key last < key r)) =
      (ordered key table).drop m :=
    List.filter_eq_self.mpr fun r hr => by
      simpa using across last (List.mem_of_getLast? hmem) r hr
  rw [behind_eq_filter distinct]
  simp only [Option.mem_some_iff, forall_eq']
  conv_lhs => rw [← split]
  rw [List.filter_append, before, later, List.nil_append]

/-- The next position of the page that starts with row `m` of the ordered rows. -/
theorem next_of_behind {m : Nat} (positive : 1 ≤ limit)
    (h : behind key after table = (ordered key table).drop m) :
    (next key limit after table = none ∧ (ordered key table).length ≤ m + limit) ∨
      ∃ k, next key limit after table = some k ∧ m + limit < (ordered key table).length ∧
        behind key (some k) table = (ordered key table).drop (m + limit) := by
  by_cases more : m + limit < (ordered key table).length
  · have hlength : limit < (behind key after table).length := by
      rw [h, List.length_drop]
      omega
    have nonempty : ((ordered key table).drop m).take limit ≠ [] := by
      rw [← List.length_pos_iff, List.length_take, List.length_drop]
      omega
    have hnext : next key limit after table =
        (((ordered key table).take (m + limit)).getLast?).map key := by
      rw [next, if_pos hlength, page, h, List.take_add, List.getLast?_append_of_ne_nil _ nonempty]
    cases hk : next key limit after table with
    | none =>
        rw [hk, eq_comm, Option.map_eq_none_iff, List.getLast?_eq_none_iff, List.take_add] at hnext
        exact absurd (List.append_eq_nil_iff.mp hnext).2 nonempty
    | some k => exact .inr ⟨k, rfl, more, behind_getLast distinct (hnext.symm.trans hk)⟩
  · refine .inl ⟨if_neg ?_, not_lt.mp more⟩
    rw [h, List.length_drop]
    omega

/-- On a table that stays, a walk goes on from a page exactly when there are rows left. -/
theorem position_step (positive : 1 ≤ limit) {before : Option κ}
    (h : position key limit (fun _ => table) n = some before)
    (left : behind key before table = (ordered key table).drop (n * limit)) :
    ((∃ after, position key limit (fun _ => table) (n + 1) = some after) ↔
        n * limit + limit < (ordered key table).length) ∧
      ∀ after, position key limit (fun _ => table) (n + 1) = some after →
        behind key after table = (ordered key table).drop (n * limit + limit) := by
  rcases next_of_behind distinct positive left with ⟨hnone, few⟩ | ⟨k, hk, more, hbehind⟩
  · have ended : ∀ after, position key limit (fun _ => table) (n + 1) ≠ some after := by
      intro after hafter
      obtain ⟨before', k, hbefore, hk, rfl⟩ := position_succ.mp hafter
      obtain rfl := Option.some.inj (h.symm.trans hbefore)
      rw [hnone] at hk
      cases hk
    exact ⟨⟨fun ⟨after, hafter⟩ => absurd hafter (ended after),
      fun more => absurd more (not_lt.mpr few)⟩, fun after hafter => absurd hafter (ended after)⟩
  · refine ⟨⟨fun _ => more, fun _ => ⟨some k, position_succ.mpr ⟨before, k, h, hk, rfl⟩⟩⟩, ?_⟩
    intro after hafter
    obtain ⟨before', k', hbefore, hk', rfl⟩ := position_succ.mp hafter
    obtain rfl := Option.some.inj (h.symm.trans hbefore)
    obtain rfl := Option.some.inj (hk.symm.trans hk')
    exact hbehind

/-- It has come to a page exactly when there are rows left for it, and what is behind its
position are these rows. -/
theorem position_const (positive : 1 ≤ limit) (n : Nat) :
    ((∃ after, position key limit (fun _ => table) n = some after) ↔
        n = 0 ∨ n * limit < (ordered key table).length) ∧
      ∀ after, position key limit (fun _ => table) n = some after →
        behind key after table = (ordered key table).drop (n * limit) := by
  induction n with
  | zero =>
      refine ⟨⟨fun _ => .inl rfl, fun _ => ⟨none, rfl⟩⟩, fun after h => ?_⟩
      obtain rfl := Option.some.inj h
      rw [Nat.zero_mul, List.drop_zero]
      rfl
  | succ n ih =>
      obtain ⟨reached, left⟩ := ih
      rw [Nat.succ_mul]
      have from_before : ∀ {before}, position key limit (fun _ => table) n = some before → _ :=
        fun h => position_step distinct positive h (left _ h)
      constructor
      · constructor
        · rintro ⟨after, hafter⟩
          obtain ⟨before, _, hbefore, _⟩ := position_succ.mp hafter
          exact .inr ((from_before hbefore).1.mp ⟨after, hafter⟩)
        · intro more
          have more : n * limit + limit < (ordered key table).length :=
            more.resolve_left (Nat.succ_ne_zero n)
          obtain ⟨before, hbefore⟩ := reached.mpr (.inr (by omega))
          exact (from_before hbefore).1.mpr more
      · intro after hafter
        obtain ⟨before, _, hbefore, _⟩ := position_succ.mp hafter
        exact (from_before hbefore).2 after hafter

/-- It comes to so many pages. -/
theorem isSome_position_const (positive : 1 ≤ limit) (n : Nat) :
    (position key limit (fun _ => table) n).isSome ↔ n < pages limit table.length := by
  rw [Option.isSome_iff_exists, (position_const distinct positive n).1, length_ordered,
    lt_pages positive]

/-- The last one has no next page. -/
theorem next_const (positive : 1 ≤ limit) (h : position key limit (fun _ => table) n = some after) :
    next key limit after table = none ↔ n + 1 = pages limit table.length := by
  have reached : n < pages limit table.length :=
    (isSome_position_const distinct positive n).mp (h ▸ rfl)
  have later : position key limit (fun _ => table) (n + 1) =
      (next key limit after table).map some := by
    rw [position, h, Option.bind_some]
  have more := isSome_position_const distinct positive (n + 1)
  rw [later, Option.isSome_map] at more
  rw [← Option.not_isSome_iff_eq_none, more]
  omega

/-- Its pages cut the ordered table. -/
theorem rowsAt_const (positive : 1 ≤ limit) (n : Nat) :
    rowsAt key limit (fun _ => table) n = ((ordered key table).drop (n * limit)).take limit := by
  obtain ⟨reached, left⟩ := position_const distinct positive n
  cases h : position key limit (fun _ => table) n with
  | none =>
      have noneLeft : (ordered key table).length ≤ n * limit := by
        by_contra more
        obtain ⟨after, hafter⟩ := reached.mpr (.inr (not_le.mp more))
        rw [h] at hafter
        cases hafter
      rw [rowsAt, h, List.drop_eq_nil_of_le noneLeft, List.take_nil]
      rfl
  | some after => rw [rowsAt_of_position h, page, left after h]

theorem rows_const (positive : 1 ≤ limit) (n : Nat) :
    rows key limit (fun _ => table) n = (ordered key table).take (n * limit) := by
  induction n with
  | zero => simp [rows]
  | succ n ih => rw [rows_succ, ih, rowsAt_const distinct positive, Nat.succ_mul, List.take_add]

/-- All of them together are the ordered table. -/
theorem rows_pages (positive : 1 ≤ limit) :
    rows key limit (fun _ => table) (pages limit table.length) = ordered key table := by
  rw [rows_const distinct positive, List.take_of_length_le]
  rw [length_ordered]
  exact le_pages_mul positive table.length

end Constant

end PaymentsPlatform.Keyset
