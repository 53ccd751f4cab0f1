import Mathlib

/-!
# The most recent keys

`uses.eraseDups` are the keys of some uses, the most recent first, each at its last use.
When a key is used it goes to the front, and what is kept of the most recent keys, up to a
bound, tells what is kept of them afterwards (`take_move`).
-/

namespace PaymentsPlatform.Recency

variable {κ : Type*} [DecidableEq κ] {keys : List κ} {k : κ}

theorem filter_eraseDups (p : κ → Bool) (uses : List κ) :
    uses.eraseDups.filter p = (uses.filter p).eraseDups := by
  induction hlen : uses.length using Nat.strong_induction_on generalizing uses with
  | _ n ih =>
      cases uses with
      | nil => rfl
      | cons u uses =>
          have shorter : (uses.filter fun b => !b == u).length < n := by
            rw [← hlen, List.length_cons]
            exact Nat.lt_succ_of_le (List.length_filter_le _ _)
          have rest := ih _ shorter (uses.filter fun b => !b == u) rfl
          rw [List.eraseDups_cons]
          cases hp : p u with
          | true =>
              rw [List.filter_cons_of_pos hp, List.filter_cons_of_pos hp, List.eraseDups_cons, rest,
                List.filter_filter, List.filter_filter]
              simp only [Bool.and_comm]
          | false =>
              have kept : (uses.filter fun b => !b == u).filter p = uses.filter p := by
                rw [List.filter_filter]
                refine List.filter_congr fun b _ => ?_
                by_cases same : b = u <;> simp [same, hp]
              rw [List.filter_cons_of_neg (by simp [hp]), List.filter_cons_of_neg (by simp [hp]),
                rest, kept]

/-- The key that is used goes to the front. -/
theorem eraseDups_cons (k : κ) (uses : List κ) :
    (k :: uses).eraseDups = k :: uses.eraseDups.filter (· ≠ k) := by
  rw [List.eraseDups_cons, filter_eraseDups]
  refine congrArg (fun rest => k :: List.eraseDups rest) (List.filter_congr fun b _ => ?_)
  by_cases same : b = k <;> simp [same]

theorem nodup_eraseDups (uses : List κ) : uses.eraseDups.Nodup := by
  induction uses with
  | nil => exact List.nodup_nil
  | cons u uses ih =>
      rw [eraseDups_cons, List.nodup_cons]
      exact ⟨fun h => absurd rfl (of_decide_eq_true (List.mem_filter.mp h).2), ih.filter _⟩

private theorem take_filter (nodup : keys.Nodup) (n : Nat) :
    ((keys.take (n + 1)).filter (· ≠ k)).take n = (keys.filter (· ≠ k)).take n := by
  induction keys generalizing n with
  | nil => rfl
  | cons a keys ih =>
      obtain ⟨fresh, nodup⟩ := List.nodup_cons.mp nodup
      rw [List.take_succ_cons]
      by_cases same : a = k
      · subst same
        have others : ∀ b ∈ keys, decide (b ≠ a) = true := fun b hb =>
          decide_eq_true fun h => fresh (h ▸ hb)
        rw [List.filter_cons_of_neg (by simp), List.filter_cons_of_neg (by simp),
          List.filter_eq_self.mpr others,
          List.filter_eq_self.mpr fun b hb => others b (List.mem_of_mem_take hb),
          List.take_take, Nat.min_self]
      · have stays : ∀ rest : List κ, (a :: rest).filter (· ≠ k) = a :: rest.filter (· ≠ k) :=
          fun rest => List.filter_cons_of_pos (decide_eq_true same)
        cases n with
        | zero => rfl
        | succ n => rw [stays, stays, List.take_succ_cons, List.take_succ_cons, ih nodup n]

/-- A key that goes to the front of the kept ones goes to the front of all. -/
theorem take_move (nodup : keys.Nodup) (k : κ) (bound : Nat) :
    (k :: (keys.take bound).filter (· ≠ k)).take bound =
      (k :: keys.filter (· ≠ k)).take bound := by
  cases bound with
  | zero => rfl
  | succ n => rw [List.take_succ_cons, List.take_succ_cons, take_filter nodup]

/-- The keys beyond the bound are the ones that are not kept. -/
theorem countP_notMem_take (nodup : keys.Nodup) (bound : Nat) :
    keys.countP (· ∉ keys.take bound) = keys.length - bound := by
  have kept : (keys.take bound).countP (· ∉ keys.take bound) = 0 :=
    List.countP_eq_zero.mpr fun k hk => by simpa using hk
  have rest : (keys.drop bound).countP (· ∉ keys.take bound) = (keys.drop bound).length := by
    refine List.countP_eq_length.mpr fun k hk => decide_eq_true fun htake => ?_
    exact List.disjoint_take_drop nodup (Nat.le_refl bound) htake hk
  calc keys.countP (· ∉ keys.take bound)
      = (keys.take bound ++ keys.drop bound).countP (· ∉ keys.take bound) := by
        rw [List.take_append_drop]
    _ = keys.length - bound := by
        rw [List.countP_append, kept, rest, List.length_drop, Nat.zero_add]

end PaymentsPlatform.Recency
