import PaymentsPlatform.Machine.Run

/-!
# Steps under interference

Some steps have to be taken, in their order, while anything else is taken between them.
`Leads` is the contract of the steps: it is composed from the contracts of single ones, whose
conditions must last through every step of the machine.
-/

namespace PaymentsPlatform.Machine

variable {σ α : Type*} {step : σ → α → σ} {P Q R : σ → Prop} {a : α} {due next : List α}

/-- No step ends the condition. -/
def Lasts (step : σ → α → σ) (P : σ → Prop) : Prop := ∀ s a, P s → P (step s a)

theorem Lasts.and (left : Lasts step P) (right : Lasts step Q) :
    Lasts step fun s => P s ∧ Q s := by
  intro s a h
  exact ⟨left s a h.1, right s a h.2⟩

theorem Lasts.or (left : Lasts step P) (right : Lasts step Q) :
    Lasts step fun s => P s ∨ Q s := by
  rintro s a (h | h)
  · exact .inl (left s a h)
  · exact .inr (right s a h)

/-- From `P`, a run in which the due steps are taken in their order ends with `Q`. -/
def Leads (step : σ → α → σ) (P : σ → Prop) (due : List α) (Q : σ → Prop) : Prop :=
  ∀ s actions, P s → due.Sublist actions → Q (run step s actions)

namespace Leads

/-- One step, with anything before it and after it. -/
theorem single (before : Lasts step P) (after : Lasts step Q) (takes : ∀ s, P s → Q (step s a)) :
    Leads step P [a] Q := by
  intro s actions h sub
  obtain ⟨first, rest, rfl⟩ := List.append_of_mem (List.singleton_sublist.mp sub)
  rw [run_append, run_cons]
  exact run_invariant (takes _ (run_invariant h before first)) after rest

theorem seq (first : Leads step P due Q) (second : Leads step Q next R) :
    Leads step P (due ++ next) R := by
  intro s actions h sub
  obtain ⟨before, after, rfl, hdue, hnext⟩ := List.append_sublist_iff.mp sub
  rw [run_append]
  exact second _ _ (first _ _ h hdue) hnext

/-- A step that is due several times counts down. -/
theorem replicate {P : Nat → σ → Prop} (lasts : ∀ n, Lasts step (P n))
    (takes : ∀ n s, P (n + 1) s → P n (step s a)) (n : Nat) :
    Leads step (P n) (List.replicate n a) (P 0) := by
  induction n with
  | zero => exact fun s actions h _ => run_invariant h (lasts 0) actions
  | succ n ih =>
      rw [List.replicate_succ, ← List.singleton_append]
      exact (single (lasts (n + 1)) (lasts n) (takes n)).seq ih

end Leads

end PaymentsPlatform.Machine
