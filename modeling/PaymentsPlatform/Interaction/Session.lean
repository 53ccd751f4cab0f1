import Mathlib

/-!
# Programs that talk to a server

A `Session` is a program as the requests it makes: it has returned, it has raised, or it
waits for the answer to a request. The answer may not arrive, and then nobody knows
whether the request was served. `Safe` is the contract of a session among others: `rely`
is what any of them may do to the server, every request is such a step wherever it is
served, and the postcondition holds from the return on.
-/

namespace PaymentsPlatform.Interaction

/-- A program that makes requests and goes on with their answers; without an answer it
goes on with `none`. -/
inductive Session (Q A ε α : Type) where
  | returned (a : α)
  | raised (e : ε)
  | request (q : Q) (next : Option A → Session Q A ε α)

/-- What any step does to the server, nothing included. -/
structure Rely (S : Type) where
  step : S → S → Prop
  refl : ∀ s, step s s
  trans : ∀ {s t u}, step s t → step t u → step s u

namespace Session

variable {S Q A ε α β : Type}

/-- Go on with what a session returns. -/
def bind (f : α → Session Q A ε β) : Session Q A ε α → Session Q A ε β
  | .returned a => f a
  | .raised e => .raised e
  | .request q next => .request q fun answer => (next answer).bind f

instance : Monad (Session Q A ε) where
  pure := .returned
  bind m f := m.bind f

/-- Code that makes no request. -/
def ofExcept : Except ε α → Session Q A ε α
  | .ok a => .returned a
  | .error e => .raised e

/-- One request, and what is made of the answer. -/
def ask (q : Q) (noAnswer : ε) (read : A → Except ε α) : Session Q A ε α :=
  .request q fun
    | none => .raised noAnswer
    | some answer => ofExcept (read answer)

/-- A session that has nothing left to do. -/
def Ended : Session Q A ε α → Prop
  | .request .. => False
  | _ => True

/-- The request that a session waits for. -/
def pending : Session Q A ε α → List Q
  | .request q _ => [q]
  | _ => []

/-- A request that is a step of `rely` whenever it is served from now on. -/
def Allowed (serve : S → Q → S × A) (rely : Rely S) (q : Q) (s : S) : Prop :=
  ∀ t, rely.step s t → rely.step t (serve t q).1

/-- The contract of a session, whatever the others do in between. -/
def Safe (serve : S → Q → S × A) (rely : Rely S) (post : α → S → Prop) (fault : ε → S → Prop) :
    Session Q A ε α → S → Prop
  | .returned a, s => ∀ t, rely.step s t → post a t
  | .raised e, s => ∀ t, rely.step s t → fault e t
  | .request q next, s => Allowed serve rely q s ∧ ∀ t, rely.step s t →
      (next (some (serve t q).2)).Safe serve rely post fault (serve t q).1 ∧
        (next none).Safe serve rely post fault t

/-- A session that makes at most `n` requests. -/
def Within : ℕ → Session Q A ε α → Prop
  | n + 1, .request _ next => ∀ answer, (next answer).Within n
  | 0, .request .. => False
  | _, _ => True

@[simp] theorem bind_returned (a : α) (f : α → Session Q A ε β) :
    (returned a >>= f) = f a := rfl

@[simp] theorem bind_raised (e : ε) (f : α → Session Q A ε β) :
    (raised e >>= f) = raised e := rfl

@[simp] theorem bind_request (q : Q) (next : Option A → Session Q A ε α)
    (f : α → Session Q A ε β) :
    (request q next >>= f) = request q fun answer => next answer >>= f := rfl

@[simp] theorem pure_eq (a : α) : (pure a : Session Q A ε α) = returned a := rfl

section Contract

variable {serve : S → Q → S × A} {rely : Rely S} {post post' : α → S → Prop}
variable {fault fault' : ε → S → Prop} {m : Session Q A ε α} {s t : S}

theorem Allowed.stable {q : Q} (h : Allowed serve rely q s) (step : rely.step s t) :
    Allowed serve rely q t := by
  intro u hu
  exact h u (rely.trans step hu)

theorem Safe.stable (h : m.Safe serve rely post fault s) (step : rely.step s t) :
    m.Safe serve rely post fault t := by
  cases m with
  | returned a => exact fun u hu => h u (rely.trans step hu)
  | raised e => exact fun u hu => h u (rely.trans step hu)
  | request q next => exact ⟨h.1.stable step, fun u hu => h.2 u (rely.trans step hu)⟩

/-- Weaken what a session promises. -/
theorem Safe.consequence (h : m.Safe serve rely post fault s) (posts : ∀ a t, post a t → post' a t)
    (faults : ∀ e t, fault e t → fault' e t) : m.Safe serve rely post' fault' s := by
  induction m generalizing s with
  | returned a => exact fun t ht => posts a t (h t ht)
  | raised e => exact fun t ht => faults e t (h t ht)
  | request q next ih =>
      exact ⟨h.1, fun t ht => ⟨ih _ (h.2 t ht).1, ih _ (h.2 t ht).2⟩⟩

/-- What comes after a session starts from its postcondition. -/
theorem Safe.bind {mid : α → S → Prop} {post : β → S → Prop} {f : α → Session Q A ε β}
    (h : m.Safe serve rely mid fault s)
    (rest : ∀ a t, rely.step s t → mid a t → (f a).Safe serve rely post fault t) :
    (m >>= f).Safe serve rely post fault s := by
  induction m generalizing s with
  | returned a => exact rest a s (rely.refl s) (h s (rely.refl s))
  | raised e => exact h
  | request q next ih =>
      refine ⟨h.1, fun t ht => ⟨ih _ (h.2 t ht).1 fun a u hu => ?_,
        ih _ (h.2 t ht).2 fun a u hu => ?_⟩⟩
      · exact rest a u (rely.trans ht (rely.trans (h.1 t ht) hu))
      · exact rest a u (rely.trans ht hu)

theorem safe_ofExcept {x : Except ε α} (ok : ∀ a, x = .ok a → ∀ t, rely.step s t → post a t)
    (error : ∀ e, x = .error e → ∀ t, rely.step s t → fault e t) :
    (ofExcept x : Session Q A ε α).Safe serve rely post fault s := by
  cases x with
  | ok a => exact ok a rfl
  | error e => exact error e rfl

/-- One request: its step, the lack of an answer, and what is made of one. -/
theorem safe_ask {q : Q} {noAnswer : ε} {read : A → Except ε α} (step : Allowed serve rely q s)
    (lost : ∀ t, fault noAnswer t)
    (answer : ∀ t, rely.step s t → (ofExcept (read (serve t q).2) : Session Q A ε α).Safe
      serve rely post fault (serve t q).1) :
    (ask q noAnswer read).Safe serve rely post fault s :=
  ⟨step, fun t ht => ⟨answer t ht, fun u _ => lost u⟩⟩

end Contract

section Bound

variable {m : Session Q A ε α} {n k : ℕ}

theorem ended_returned (a : α) : (returned a : Session Q A ε α).Ended := trivial

theorem ended_raised (e : ε) : (raised e : Session Q A ε α).Ended := trivial

theorem Ended.within (h : m.Ended) (n : ℕ) : m.Within n := by
  cases m with
  | returned a => cases n <;> trivial
  | raised e => cases n <;> trivial
  | request q next => exact h.elim

theorem Within.ended (h : m.Within 0) : m.Ended := by
  cases m with
  | returned a => trivial
  | raised e => trivial
  | request q next => exact h.elim

theorem Within.mono (h : m.Within n) (le : n ≤ k) : m.Within k := by
  induction m generalizing n k with
  | returned a => exact (ended_returned a).within k
  | raised e => exact (ended_raised e).within k
  | request q next ih =>
      cases n with
      | zero => exact h.elim
      | succ n =>
          obtain ⟨k, rfl⟩ : ∃ k', k = k' + 1 := ⟨k - 1, by omega⟩
          exact fun answer => ih answer (h answer) (Nat.le_of_succ_le_succ le)

theorem Within.bind {f : α → Session Q A ε β} (h : m.Within n) (rest : ∀ a, (f a).Within k) :
    (m >>= f).Within (n + k) := by
  induction m generalizing n with
  | returned a => exact (rest a).mono (Nat.le_add_left k n)
  | raised e => exact (ended_raised e).within (n + k)
  | request q next ih =>
      cases n with
      | zero => exact h.elim
      | succ n =>
          rw [Nat.succ_add]
          exact fun answer => ih answer (h answer)

theorem within_ofExcept (x : Except ε α) (n : ℕ) : (ofExcept x : Session Q A ε α).Within n := by
  cases x <;> cases n <;> trivial

theorem within_ask (q : Q) (noAnswer : ε) (read : A → Except ε α) :
    (ask q noAnswer read).Within 1 := by
  intro answer
  cases answer with
  | none => trivial
  | some a => exact within_ofExcept (read a) 0

end Bound

end Session

end PaymentsPlatform.Interaction
