import Mathlib

/-!
# Sequenced cells

A cell holds at most one value, stamped with the sequence token of the change that
wrote it. A change overwrites an occupied cell only when its token is strictly
greater; an empty cell takes any write. Removing a value forgets its token, so an
empty cell cannot tell a cell that was never written from one whose value was
removed: this is the difference to a last-writer-wins register, and the lemmas
below say when it does not matter.

* `run_of_le`: changes no newer than the value leave the cell alone.
* `run_concat_of_increasing`: in token order, a run ends with its last change.
* `run_getLast?`: in token order, only the last change of every group counts.
* `run_replay`: running a tail of an ordered run again changes nothing.
* `run_of_greatest`: in any order, a greatest write wins.
* `run_eq_none_iff`: in any order, a run from an empty cell ends empty exactly when
  every write is followed by a removal newer than it.
-/

namespace PaymentsPlatform.Sequenced

variable {ι α β : Type*}

/-- A change with its sequence token: `some a` writes `a`, `none` removes. -/
structure Change (ι α : Type*) where
  token : ι
  value : Option α

/-- A cell, empty or holding a value with the token it was written under. -/
abbrev Cell (ι α : Type*) := Option (ι × α)

/-- What a change makes of a cell it applies to. -/
def Change.outcome (e : Change ι α) : Cell ι α := e.value.map fun a => (e.token, a)

/-- Transform the written value. -/
def Change.map (f : α → β) (e : Change ι α) : Change ι β := ⟨e.token, e.value.map f⟩

variable [LinearOrder ι]

/-- Apply one change under the sequence guard. -/
def Cell.apply (c : Cell ι α) (e : Change ι α) : Cell ι α :=
  match c with
  | none => e.outcome
  | some held => if held.1 < e.token then e.outcome else some held

/-- Apply changes from left to right. -/
def Cell.run (c : Cell ι α) (es : List (Change ι α)) : Cell ι α := es.foldl Cell.apply c

variable {c : Cell ι α} {e : Change ι α} {es : List (Change ι α)} {t : ι} {a : α}

namespace Cell

@[simp] theorem apply_none (e : Change ι α) : Cell.apply none e = e.outcome := rfl

theorem apply_of_lt (h : t < e.token) : Cell.apply (some (t, a)) e = e.outcome := if_pos h

theorem apply_of_le (h : e.token ≤ t) : Cell.apply (some (t, a)) e = some (t, a) :=
  if_neg (not_lt.mpr h)

/-- A change newer than whatever the cell holds applies. -/
theorem apply_of_newer (h : ∀ held, c = some held → held.1 < e.token) :
    c.apply e = e.outcome := by
  cases c with
  | none => rfl
  | some held => exact apply_of_lt (h held rfl)

/-- A change leaves the cell alone, or it is newer than the cell and decides it. -/
theorem apply_cases (c : Cell ι α) (e : Change ι α) :
    c.apply e = c ∨ c.apply e = e.outcome ∧ ∀ held, c = some held → held.1 < e.token := by
  by_cases newer : ∀ held, c = some held → held.1 < e.token
  · exact .inr ⟨apply_of_newer newer, newer⟩
  · push Not at newer
    obtain ⟨⟨t, a⟩, rfl, older⟩ := newer
    exact .inl (apply_of_le older)

@[simp] theorem run_nil : c.run [] = c := rfl

@[simp] theorem run_cons : c.run (e :: es) = (c.apply e).run es := rfl

theorem run_append (first second : List (Change ι α)) :
    c.run (first ++ second) = (c.run first).run second := List.foldl_append

@[simp] theorem run_concat : c.run (es ++ [e]) = (c.run es).apply e := by
  rw [run_append]
  rfl

/-- The token held after a change is the old one or the change's. -/
theorem apply_token {held : ι × α} (h : c.apply e = some held) :
    held.1 = e.token ∨ c = some held := by
  unfold Cell.apply at h
  cases c with
  | none =>
      obtain ⟨a, _, rfl⟩ := Option.map_eq_some_iff.mp h
      exact .inl rfl
  | some old =>
      simp only at h
      split at h
      · obtain ⟨a, _, rfl⟩ := Option.map_eq_some_iff.mp h
        exact .inl rfl
      · exact .inr h

/-- Changes no newer than the held value leave the cell alone. -/
theorem run_of_le (h : ∀ e ∈ es, e.token ≤ t) : Cell.run (some (t, a)) es = some (t, a) := by
  induction es with
  | nil => rfl
  | cons e es ih =>
      rw [run_cons, apply_of_le (h e List.mem_cons_self)]
      exact ih fun e he => h e (List.mem_cons_of_mem _ he)

/-- A run ends with its last change when that one is newer than the start and than
every change before it. -/
theorem run_concat_of_newer (start : ∀ held, c = some held → held.1 < e.token)
    (before : ∀ e' ∈ es, e'.token < e.token) : c.run (es ++ [e]) = e.outcome := by
  induction es generalizing c with
  | nil => exact apply_of_newer start
  | cons e₀ es ih =>
      obtain ⟨first, before⟩ := List.forall_mem_cons.mp before
      rw [List.cons_append, run_cons]
      refine ih (fun held h => ?_) before
      rcases apply_token h with htoken | hc
      · exact htoken ▸ first
      · exact start held hc

/-- In strictly increasing token order a run ends with its last change. -/
theorem run_concat_of_increasing (start : ∀ held, c = some held → held.1 < e.token)
    (increasing : (es ++ [e]).Pairwise fun e₁ e₂ => e₁.token < e₂.token) :
    c.run (es ++ [e]) = e.outcome :=
  run_concat_of_newer start fun e' hmem =>
    (List.pairwise_append.mp increasing).2.2 e' hmem e (List.mem_singleton_self e)

/-- In strictly increasing token order only the last change counts, also for a cell
that is newer than some of the changes, or than all of them. -/
theorem run_concat_eq_apply
    (increasing : (es ++ [e]).Pairwise fun e₁ e₂ => e₁.token < e₂.token) :
    c.run (es ++ [e]) = c.apply e := by
  by_cases start : ∀ held, c = some held → held.1 < e.token
  · rw [apply_of_newer start, run_concat_of_increasing start increasing]
  · push Not at start
    obtain ⟨⟨t, a⟩, rfl, hle⟩ := start
    have older : ∀ e' ∈ es ++ [e], e'.token ≤ t := by
      intro e' hmem
      rcases List.mem_append.mp hmem with hmem | hmem
      · exact ((List.pairwise_append.mp increasing).2.2 e' hmem e
          (List.mem_singleton_self e)).le.trans hle
      · exact List.mem_singleton.mp hmem ▸ hle
    rw [run_of_le older, apply_of_le hle]

/-- Groups of changes in increasing token order act through their last changes. -/
theorem run_getLast? (groups : List (List (Change ι α)))
    (increasing : ∀ g ∈ groups, g.Pairwise fun e₁ e₂ => e₁.token < e₂.token) :
    c.run (groups.filterMap List.getLast?) = c.run groups.flatten := by
  induction groups generalizing c with
  | nil => rfl
  | cons g groups ih =>
      have hrest := fun g hg => increasing g (List.mem_cons_of_mem _ hg)
      rw [List.flatten_cons, run_append, ← ih hrest]
      rcases List.eq_nil_or_concat' g with rfl | ⟨es, e, rfl⟩
      · rfl
      · have hg := increasing _ List.mem_cons_self
        rw [List.filterMap_cons_some (List.getLast?_concat), run_cons,
          run_concat_eq_apply hg]

/-- A value held at the end of an increasing run is as new as every change of it. -/
theorem token_le_of_run {held : ι × α}
    (increasing : es.Pairwise fun e₁ e₂ => e₁.token < e₂.token)
    (h : Cell.run none es = some held) : ∀ e ∈ es, e.token ≤ held.1 := by
  rcases List.eq_nil_or_concat' es with rfl | ⟨older, e, rfl⟩
  · cases h
  · rw [run_concat_of_increasing (by simp) increasing] at h
    obtain ⟨a, _, rfl⟩ := Option.map_eq_some_iff.mp h
    intro e' hmem
    rcases List.mem_append.mp hmem with hmem | hmem
    · exact ((List.pairwise_append.mp increasing).2.2 e' hmem e (List.mem_singleton_self e)).le
    · exact List.mem_singleton.mp hmem ▸ le_refl _

/-- Running a tail of an increasing run again, from where the run ended, leads back
to the same cell. -/
theorem run_replay (before after : List (Change ι α))
    (increasing : (before ++ after).Pairwise fun e₁ e₂ => e₁.token < e₂.token) :
    (Cell.run none (before ++ after)).run after = Cell.run none (before ++ after) := by
  cases hfinal : Cell.run none (before ++ after) with
  | some held =>
      exact run_of_le fun e hmem =>
        token_le_of_run increasing hfinal e (List.mem_append_right _ hmem)
  | none =>
      rcases List.eq_nil_or_concat' after with rfl | ⟨older, e, rfl⟩
      · rfl
      · have hout : e.outcome = none := by
          rw [← List.append_assoc] at increasing hfinal
          exact (run_concat_of_increasing (by simp) increasing).symm.trans hfinal
        rw [run_concat_of_increasing (by simp) (List.pairwise_append.mp increasing).2.1, hout]

/-- A held value survives a run whose removals are no newer than it; the token only
grows. -/
theorem run_survives (h : ∀ d ∈ es, d.value = none → d.token ≤ t) {s : ι} (hs : t ≤ s) :
    ∃ held, Cell.run (some (s, a)) es = some held ∧ t ≤ held.1 := by
  induction es generalizing s a with
  | nil => exact ⟨(s, a), rfl, hs⟩
  | cons e es ih =>
      have hrest : ∀ d ∈ es, d.value = none → d.token ≤ t :=
        fun d hd => h d (List.mem_cons_of_mem _ hd)
      rw [run_cons]
      by_cases hlt : s < e.token
      · rw [apply_of_lt hlt, Change.outcome]
        cases hv : e.value with
        | none => exact absurd (h e List.mem_cons_self hv) (not_le.mpr (hs.trans_lt hlt))
        | some b => exact ih hrest (hs.trans hlt.le)
      · rw [apply_of_le (not_lt.mp hlt)]
        exact ih hrest hs

/-- The change that wrote the final value of a run from an empty cell; nothing after
it was newer. -/
theorem run_origin {held : ι × α} (h : Cell.run none es = some held) :
    ∃ before e after, es = before ++ e :: after ∧ e.outcome = some held ∧
      ∀ d ∈ after, d.token ≤ held.1 := by
  induction es using List.reverseRecOn generalizing held with
  | nil => cases h
  | append_singleton es e ih =>
      rw [run_concat] at h
      by_cases hlast : Cell.run none es = some held
      · obtain ⟨before, e₀, after, rfl, hout, hafter⟩ := ih hlast
        refine ⟨before, e₀, after ++ [e], by simp, hout, ?_⟩
        intro d hd
        rcases List.mem_append.mp hd with hd | hd
        · exact hafter d hd
        · rw [List.mem_singleton.mp hd]
          rw [hlast] at h
          by_contra hlt
          have kept := (apply_of_lt (not_le.mp hlt)).symm.trans h
          obtain ⟨a, _, hcell⟩ := Option.map_eq_some_iff.mp kept
          exact hlt (by rw [← hcell])
      · refine ⟨es, e, [], rfl, ?_, by simp⟩
        cases hc : Cell.run none es with
        | none => rw [hc] at h; exact h
        | some old =>
            rw [hc] at h hlast
            by_cases hlt : old.1 < e.token
            · exact (apply_of_lt hlt).symm.trans h
            · exact absurd ((apply_of_le (not_lt.mp hlt)).symm.trans h) hlast

/-- From an empty cell a run ends empty exactly when every write in it is followed
by a removal that is newer than the write. -/
theorem run_eq_none_iff : Cell.run none es = none ↔
    ∀ before e after, es = before ++ e :: after → e.value ≠ none →
      ∃ d ∈ after, d.value = none ∧ e.token < d.token := by
  constructor
  · rintro h before e after rfl hwrite
    by_contra hno
    push Not at hno
    obtain ⟨a, ha⟩ := Option.ne_none_iff_exists'.mp hwrite
    rw [run_append, run_cons] at h
    have occupied : ∃ s b, (Cell.run none before).apply e = some (s, b) ∧ e.token ≤ s := by
      cases hc : Cell.run none before with
      | none => exact ⟨e.token, a, by simp [Change.outcome, ha], le_refl _⟩
      | some held =>
          by_cases hlt : held.1 < e.token
          · exact ⟨e.token, a, by rw [apply_of_lt hlt]; simp [Change.outcome, ha], le_refl _⟩
          · exact ⟨held.1, held.2, apply_of_le (not_lt.mp hlt), not_lt.mp hlt⟩
    obtain ⟨s, b, hcell, hle⟩ := occupied
    rw [hcell] at h
    obtain ⟨held, hrun, _⟩ := run_survives (a := b) hno hle
    rw [hrun] at h
    cases h
  · intro h
    by_contra hsome
    obtain ⟨held, hheld⟩ := Option.ne_none_iff_exists'.mp hsome
    obtain ⟨before, e, after, hes, hout, hafter⟩ := run_origin hheld
    obtain ⟨a, ha, hcell⟩ := Option.map_eq_some_iff.mp hout
    obtain ⟨d, hd, _, hlt⟩ := h before e after hes (by simp [ha])
    exact absurd (hafter d hd) (not_le.mpr (by rw [← hcell]; exact hlt))

/-- The same for the changes that the members of a list make. -/
theorem run_filterMap_eq_none_iff (f : β → Option (Change ι α)) (xs : List β) :
    Cell.run none (xs.filterMap f) = none ↔
      ∀ before x after e, xs = before ++ x :: after → f x = some e → e.value ≠ none →
        ∃ y ∈ after, ∃ d, f y = some d ∧ d.value = none ∧ e.token < d.token := by
  rw [run_eq_none_iff]
  constructor
  · rintro h before x after e rfl hx hwrite
    obtain ⟨d, hd, hremove, hlt⟩ := h (before.filterMap f) e (after.filterMap f)
      (by rw [List.filterMap_append, List.filterMap_cons_some hx]) hwrite
    obtain ⟨y, hy, hyd⟩ := List.mem_filterMap.mp hd
    exact ⟨y, hy, d, hyd, hremove, hlt⟩
  · intro h before e after hes hwrite
    obtain ⟨xs₁, xs₂, rfl, _, hrest⟩ := List.filterMap_eq_append_iff.mp hes
    obtain ⟨skipped, x, xs₃, rfl, _, hx, rfl⟩ := List.filterMap_eq_cons_iff.mp hrest
    obtain ⟨y, hy, d, hyd, hremove, hlt⟩ :=
      h (xs₁ ++ skipped) x xs₃ e (by simp) hx hwrite
    exact ⟨d, List.mem_filterMap.mpr ⟨y, hy, hyd⟩, hremove, hlt⟩

/-- Whatever the order, a run over a greatest write ends with it: `e` is in the run,
no change is newer, and no other change has its token. -/
theorem run_of_greatest (hmem : e ∈ es) (hwrite : e.value = some a)
    (start : ∀ held, c = some held → held.1 < e.token)
    (greatest : ∀ e' ∈ es, e'.token ≤ e.token)
    (alone : ∀ e' ∈ es, e'.token = e.token → e'.outcome = e.outcome) :
    c.run es = some (e.token, a) := by
  induction es generalizing c with
  | nil => cases hmem
  | cons e₀ es ih =>
      rw [run_cons]
      have hout : e.outcome = some (e.token, a) := by simp [Change.outcome, hwrite]
      by_cases htok : e₀.token = e.token
      · have happ : c.apply e₀ = some (e.token, a) := by
          rw [apply_of_newer fun held h => htok ▸ start held h]
          exact (alone e₀ List.mem_cons_self htok).trans hout
        rw [happ]
        exact run_of_le fun e' he' => greatest e' (List.mem_cons_of_mem _ he')
      · have hmem' : e ∈ es := by
          rcases List.mem_cons.mp hmem with heq | hmem
          · exact absurd (by rw [heq]) htok
          · exact hmem
        apply ih hmem' _ (fun e' he' => greatest e' (List.mem_cons_of_mem _ he'))
          (fun e' he' => alone e' (List.mem_cons_of_mem _ he'))
        intro held h
        rcases apply_token h with htoken | hc
        · exact htoken ▸ lt_of_le_of_ne (greatest e₀ List.mem_cons_self) htok
        · exact start held hc

/-- Transforming values commutes with applying changes. -/
theorem map_apply (f : α → β) (c : Cell ι α) (e : Change ι α) :
    (c.apply e).map (Prod.map id f) = Cell.apply (c.map (Prod.map id f)) (e.map f) := by
  cases c with
  | none => simp [Change.outcome, Change.map, Function.comp_def]
  | some held =>
      by_cases h : held.1 < e.token
      · simp [Cell.apply, h, Change.outcome, Change.map, Function.comp_def]
      · simp [Cell.apply, h, Change.map]

theorem map_run (f : α → β) (c : Cell ι α) (es : List (Change ι α)) :
    (c.run es).map (Prod.map id f) = Cell.run (c.map (Prod.map id f)) (es.map (Change.map f)) := by
  induction es generalizing c with
  | nil => rfl
  | cons e es ih => rw [run_cons, ih, map_apply, List.map_cons, run_cons]

end Cell

end PaymentsPlatform.Sequenced
