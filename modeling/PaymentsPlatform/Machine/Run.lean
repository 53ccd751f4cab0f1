import Mathlib

/-!
# Runs of a deterministic machine

A machine is a total `step : σ → α → σ`; an action that is not enabled leaves the
state alone. A finite run is a fold, the states it reaches are those of its
prefixes, and a condition on its steps is judged in the state each step is taken
from. The rules below package the induction over a run once: an invariant from its
step lemma, an invariant that only guarded steps preserve, and the case where the
guard is exactly what preserves it.
-/

namespace PaymentsPlatform.Machine

variable {σ α : Type*} {step : σ → α → σ} {s : σ} {a : α} {actions : List α}

/-- The state after a finite run. -/
def run (step : σ → α → σ) (s : σ) (actions : List α) : σ := actions.foldl step s

/-- `P` holds in every state the run reaches, the first one included. -/
def Always (step : σ → α → σ) (P : σ → Prop) (s : σ) (actions : List α) : Prop :=
  ∀ before, before <+: actions → P (run step s before)

/-- Every step of the run meets `guard` in the state it is taken from. -/
def Along (step : σ → α → σ) (guard : σ → α → Prop) (s : σ) (actions : List α) : Prop :=
  ∀ before a, before ++ [a] <+: actions → guard (run step s before) a

@[simp] theorem run_nil : run step s [] = s := rfl

@[simp] theorem run_cons : run step s (a :: actions) = run step (step s a) actions := rfl

theorem run_append (first second : List α) :
    run step s (first ++ second) = run step (run step s first) second :=
  List.foldl_append

@[simp] theorem run_concat : run step s (actions ++ [a]) = step (run step s actions) a := by
  rw [run_append]
  rfl

@[simp] theorem always_nil {P : σ → Prop} : Always step P s [] ↔ P s := by
  constructor
  · intro h
    exact h [] (List.prefix_refl _)
  · intro h before hb
    rw [List.prefix_nil.mp hb]
    exact h

@[simp] theorem always_cons {P : σ → Prop} :
    Always step P s (a :: actions) ↔ P s ∧ Always step P (step s a) actions := by
  constructor
  · intro h
    exact ⟨h [] (List.nil_prefix), fun before hb => h (a :: before) (by simpa using hb)⟩
  · rintro ⟨hs, hrest⟩ before hb
    cases before with
    | nil => exact hs
    | cons b before =>
        obtain ⟨rfl, shorter⟩ := List.cons_prefix_cons.mp hb
        exact hrest before shorter

@[simp] theorem along_nil {guard : σ → α → Prop} : Along step guard s [] := by
  intro before a hb
  simp at hb

@[simp] theorem along_cons {guard : σ → α → Prop} :
    Along step guard s (a :: actions) ↔ guard s a ∧ Along step guard (step s a) actions := by
  constructor
  · intro h
    exact ⟨h [] a (by simp), fun before b hb => h (a :: before) b (by simpa using hb)⟩
  · rintro ⟨hs, hrest⟩ before b hb
    cases before with
    | nil =>
        have : b = a := by simpa using hb
        exact this ▸ hs
    | cons c before =>
        obtain ⟨rfl, shorter⟩ := List.cons_prefix_cons.mp hb
        exact hrest before b shorter

instance decidableAlong {guard : σ → α → Prop} [∀ s a, Decidable (guard s a)] :
    ∀ s actions, Decidable (Along step guard s actions)
  | _, [] => .isTrue along_nil
  | s, a :: actions =>
      have : Decidable (Along step guard (step s a) actions) := decidableAlong (step s a) actions
      decidable_of_iff (guard s a ∧ Along step guard (step s a) actions) along_cons.symm

/-- A guard that every action of the run meets in every state. -/
theorem along_of_forall {guard : σ → α → Prop} (h : ∀ a ∈ actions, ∀ s, guard s a) :
    Along step guard s actions :=
  fun _ a hb => h a (hb.subset (by simp)) _

/-- A guard that does not look at the state is a condition on the actions. -/
theorem along_const_iff {p : α → Prop} :
    Along step (fun _ a => p a) s actions ↔ ∀ a ∈ actions, p a := by
  constructor
  · intro h a ha
    obtain ⟨before, after, rfl⟩ := List.append_of_mem ha
    exact h before a (by simp)
  · intro h
    exact along_of_forall fun a ha _ => h a ha

/-- A guard that the actions of the run meet in the states of an invariant they keep. -/
theorem along_of_invariant {I : σ → Prop} {guard : σ → α → Prop} (init : I s)
    (h : ∀ s, I s → ∀ a ∈ actions, guard s a ∧ I (step s a)) : Along step guard s actions := by
  induction actions generalizing s with
  | nil => exact along_nil
  | cons a actions ih =>
      obtain ⟨hguard, hnext⟩ := h s init a List.mem_cons_self
      exact along_cons.mpr ⟨hguard, ih hnext fun s hs b hb => h s hs b (List.mem_cons_of_mem _ hb)⟩

/-- The last state of a run is one of those it reaches. -/
theorem Always.final {P : σ → Prop} (h : Always step P s actions) : P (run step s actions) :=
  h actions (List.prefix_refl _)

theorem Always.mono {P Q : σ → Prop} (h : Always step P s actions) (imp : ∀ s, P s → Q s) :
    Always step Q s actions :=
  fun before hb => imp _ (h before hb)

/-- A property that every guarded step preserves holds throughout a guarded run. -/
theorem always_of_along {P : σ → Prop} {guard : σ → α → Prop} (init : P s)
    (preserved : ∀ s a, P s → guard s a → P (step s a)) (h : Along step guard s actions) :
    Always step P s actions := by
  induction actions generalizing s with
  | nil => simpa using init
  | cons a actions ih =>
      obtain ⟨hguard, hrest⟩ := along_cons.mp h
      exact always_cons.mpr ⟨init, ih (preserved s a init hguard) hrest⟩

/-- An invariant of every step holds throughout every run. -/
theorem always_of_invariant {P : σ → Prop} (init : P s)
    (preserved : ∀ s a, P s → P (step s a)) : Always step P s actions := by
  intro before _
  exact List.foldlRecOn before step init fun s hs a _ => preserved s a hs

theorem run_invariant {P : σ → Prop} (init : P s) (preserved : ∀ s a, P s → P (step s a))
    (actions : List α) : P (run step s actions) :=
  (always_of_invariant init preserved).final

/-- When, among the states of a background invariant, the guard is exactly what
keeps `P`, the runs that always satisfy `P` are exactly the guarded ones. -/
theorem always_iff_along {I P : σ → Prop} {guard : σ → α → Prop} (background : I s)
    (stable : ∀ s a, I s → I (step s a)) (init : P s)
    (exact_guard : ∀ s a, I s → P s → (P (step s a) ↔ guard s a)) :
    Always step P s actions ↔ Along step guard s actions := by
  induction actions generalizing s with
  | nil => simpa using init
  | cons a actions ih =>
      rw [always_cons, along_cons]
      constructor
      · rintro ⟨_, hrest⟩
        have hnext : P (step s a) := hrest [] List.nil_prefix
        exact ⟨(exact_guard s a background init).mp hnext,
          (ih (stable s a background) hnext).mp hrest⟩
      · rintro ⟨hguard, hrest⟩
        have hnext : P (step s a) := (exact_guard s a background init).mpr hguard
        exact ⟨init, (ih (stable s a background) hnext).mpr hrest⟩

end PaymentsPlatform.Machine
