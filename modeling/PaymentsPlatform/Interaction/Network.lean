import PaymentsPlatform.Interaction.Session
import PaymentsPlatform.Machine.Run

/-!
# Sessions around one server

Any number of parties run their sessions against one server, in any interleaving. A party
may give up on an answer, and may be killed and started again; the request it was waiting
for can still reach the server, at any later time or never.

* `sound_step`: sessions that are safe on their own stay safe among the others.
* `returned_after`, `raised_after`: what a party has returned or raised, its contract says,
  in every later state.
* `ended_after`: a party that is not started again ends after as many moves as its
  session has requests.
-/

namespace PaymentsPlatform.Interaction

/-- The server, the sessions, and the requests nobody waits for any more. -/
structure Network (ι S Q A ε α : Type) where
  server : S
  session : ι → Session Q A ε α
  late : List Q

inductive Move (ι : Type) where
  /-- The request of `i` is served, and the answer arrives. -/
  | answer (i : ι)
  /-- The answer does not arrive. -/
  | giveUp (i : ι)
  /-- `i` is killed and starts again. -/
  | restart (i : ι)
  /-- A late request is served. -/
  | arrive (n : ℕ)

namespace Network

variable {ι S Q A ε α : Type}

section Code

variable (serve : S → Q → S × A) (program : ι → Session Q A ε α)

def initial (s : S) : Network ι S Q A ε α where
  server := s
  session := program
  late := []

def step [DecidableEq ι] (n : Network ι S Q A ε α) : Move ι → Network ι S Q A ε α
  | .answer i =>
      match n.session i with
      | .request q next =>
          { n with
            server := (serve n.server q).1
            session := Function.update n.session i (next (some (serve n.server q).2)) }
      | _ => n
  | .giveUp i =>
      match n.session i with
      | .request q next =>
          { n with
            session := Function.update n.session i (next none)
            late := n.late ++ [q] }
      | _ => n
  | .restart i =>
      { n with
        session := Function.update n.session i (program i)
        late := n.late ++ (n.session i).pending }
  | .arrive k =>
      match n.late[k]? with
      | some q => { n with server := (serve n.server q).1, late := n.late.eraseIdx k }
      | none => n

end Code

/-- A move that takes the session of `i` on. -/
def Move.of [DecidableEq ι] (i : ι) : Move ι → Bool
  | .answer j => j = i
  | .giveUp j => j = i
  | _ => false

/-- Every session keeps its contract from here on, after a restart too, and every late
request is a step of `rely`. -/
structure Sound (serve : S → Q → S × A) (program : ι → Session Q A ε α) (rely : Rely S)
    (post : ι → α → S → Prop) (fault : ι → ε → S → Prop) (n : Network ι S Q A ε α) : Prop where
  session : ∀ i, (n.session i).Safe serve rely (post i) (fault i) n.server
  program : ∀ i, (program i).Safe serve rely (post i) (fault i) n.server
  late : ∀ q ∈ n.late, Session.Allowed serve rely q n.server

variable {serve : S → Q → S × A} {program : ι → Session Q A ε α} {rely : Rely S}
variable {post : ι → α → S → Prop} {fault : ι → ε → S → Prop} {n : Network ι S Q A ε α}
variable {moves more : List (Move ι)} {i : ι} {a : α} {e : ε} {s : S}

theorem sound_initial (safe : ∀ i, (program i).Safe serve rely (post i) (fault i) s) :
    (initial program s).Sound serve program rely post fault where
  session := safe
  program := safe
  late := nofun

variable [DecidableEq ι]

/-- The server goes on by `rely`, and the sessions, apart from one, stay. -/
theorem Sound.update (sound : n.Sound serve program rely post fault) {t : S}
    (step : rely.step n.server t) {m : Session Q A ε α}
    (safe : m.Safe serve rely (post i) (fault i) t) {late : List Q}
    (allowed : ∀ q ∈ late, Session.Allowed serve rely q t) :
    (Network.mk t (Function.update n.session i m) late).Sound serve program rely post fault where
  session j := by
    by_cases here : j = i
    · subst here
      simpa only [Function.update_self] using safe
    · simpa only [Function.update_of_ne here] using (sound.session j).stable step
  program j := (sound.program j).stable step
  late := allowed

theorem sound_step (sound : n.Sound serve program rely post fault) (m : Move ι) :
    rely.step n.server (n.step serve program m).server ∧
      (n.step serve program m).Sound serve program rely post fault := by
  have stays := rely.refl n.server
  cases m with
  | answer i =>
      have safe := sound.session i
      simp only [step]
      cases hi : n.session i with
      | returned a => exact ⟨stays, sound⟩
      | raised e => exact ⟨stays, sound⟩
      | request q next =>
          rw [hi] at safe
          have served := safe.1 _ stays
          exact ⟨served, sound.update served (safe.2 _ stays).1 fun q' hq' =>
            (sound.late q' hq').stable served⟩
  | giveUp i =>
      have safe := sound.session i
      simp only [step]
      cases hi : n.session i with
      | returned a => exact ⟨stays, sound⟩
      | raised e => exact ⟨stays, sound⟩
      | request q next =>
          rw [hi] at safe
          refine ⟨stays, sound.update stays (safe.2 _ stays).2 fun q' hq' => ?_⟩
          rcases List.mem_append.mp hq' with old | new
          · exact sound.late q' old
          · exact List.mem_singleton.mp new ▸ safe.1
  | restart i =>
      have safe := sound.session i
      refine ⟨stays, sound.update stays (sound.program i) fun q' hq' => ?_⟩
      rcases List.mem_append.mp hq' with old | new
      · exact sound.late q' old
      · -- killed while it was waiting
        cases hi : n.session i with
        | returned a => rw [hi] at new; cases new
        | raised e => rw [hi] at new; cases new
        | request q next =>
            rw [hi] at safe new
            exact List.mem_singleton.mp new ▸ safe.1
  | arrive k =>
      simp only [step]
      cases hk : n.late[k]? with
      | none => exact ⟨stays, sound⟩
      | some q =>
          have served := sound.late q (List.mem_of_getElem? hk) _ stays
          exact ⟨served, fun j => (sound.session j).stable served,
            fun j => (sound.program j).stable served,
            fun q' hq' => (sound.late q' (List.mem_of_mem_eraseIdx hq')).stable served⟩

theorem sound_run (sound : n.Sound serve program rely post fault) (moves : List (Move ι)) :
    rely.step n.server (Machine.run (step serve program) n moves).server ∧
      (Machine.run (step serve program) n moves).Sound serve program rely post fault := by
  induction moves generalizing n with
  | nil => exact ⟨rely.refl _, sound⟩
  | cons m moves ih =>
      obtain ⟨first, sound⟩ := sound_step sound m
      obtain ⟨rest, sound⟩ := ih sound
      exact ⟨rely.trans first rest, sound⟩

/-- What a party has returned meets its postcondition, whatever happens later. -/
theorem returned_after (sound : n.Sound serve program rely post fault)
    (returned : (Machine.run (step serve program) n moves).session i = .returned a)
    (more : List (Move ι)) :
    post i a (Machine.run (step serve program) n (moves ++ more)).server := by
  obtain ⟨_, sound⟩ := sound_run sound moves
  have safe := sound.session i
  rw [returned] at safe
  rw [Machine.run_append]
  exact safe _ (sound_run sound more).1

theorem raised_after (sound : n.Sound serve program rely post fault)
    (raised : (Machine.run (step serve program) n moves).session i = .raised e) :
    fault i e (Machine.run (step serve program) n moves).server := by
  have safe := (sound_run sound moves).2.session i
  rw [raised] at safe
  exact safe _ (rely.refl _)

/-- A move of `i` takes its session a request on. -/
theorem within_step {k : ℕ} (within : (n.session i).Within (k + 1)) {m : Move ι}
    (own : Move.of i m = true) : ((n.step serve program m).session i).Within k := by
  have ended (done : (n.session i).Ended) : (n.session i).Within k := done.within k
  cases m with
  | answer j =>
      obtain rfl : j = i := of_decide_eq_true own
      simp only [step]
      cases hj : n.session j with
      | returned a => exact ended (hj ▸ Session.ended_returned a)
      | raised e => exact ended (hj ▸ Session.ended_raised e)
      | request q next =>
          rw [hj] at within
          simpa only [Function.update_self] using within _
  | giveUp j =>
      obtain rfl : j = i := of_decide_eq_true own
      simp only [step]
      cases hj : n.session j with
      | returned a => exact ended (hj ▸ Session.ended_returned a)
      | raised e => exact ended (hj ▸ Session.ended_raised e)
      | request q next =>
          rw [hj] at within
          simpa only [Function.update_self] using within _
  | restart j => cases own
  | arrive k => cases own

/-- Nobody else touches the session of `i`. -/
theorem session_step {m : Move ι} (own : Move.of i m = false) (alive : m ≠ .restart i) :
    (n.step serve program m).session i = n.session i := by
  cases m with
  | answer j =>
      have other : i ≠ j := fun same => of_decide_eq_false own same.symm
      simp only [step]
      cases n.session j with
      | returned a => rfl
      | raised e => rfl
      | request q next => exact Function.update_of_ne other _ _
  | giveUp j =>
      have other : i ≠ j := fun same => of_decide_eq_false own same.symm
      simp only [step]
      cases n.session j with
      | returned a => rfl
      | raised e => rfl
      | request q next => exact Function.update_of_ne other _ _
  | restart j =>
      have other : i ≠ j := by rintro rfl; exact alive rfl
      exact Function.update_of_ne other _ _
  | arrive k =>
      simp only [step]
      cases n.late[k]? <;> rfl

/-- No move makes a session longer than it was at its start. -/
theorem within_run {k : ℕ} (programs : ∀ i, (program i).Within k)
    (within : ∀ i, (n.session i).Within k) (moves : List (Move ι)) (i : ι) :
    ((Machine.run (step serve program) n moves).session i).Within k := by
  induction moves generalizing n with
  | nil => exact within i
  | cons m moves ih =>
      refine ih fun j => ?_
      by_cases again : m = .restart j
      · subst again
        simpa only [step, Function.update_self] using programs j
      · cases own : Move.of j m with
        | true => exact within_step ((within j).mono (Nat.le_succ k)) own
        | false =>
            rw [session_step own again]
            exact within j

/-- A party that is not started again ends after as many moves as it has requests to make. -/
theorem ended_after {k : ℕ} (within : (n.session i).Within k) (alive : .restart i ∉ moves)
    (enough : k ≤ moves.countP (Move.of i)) :
    ((Machine.run (step serve program) n moves).session i).Ended := by
  induction moves generalizing n k with
  | nil =>
      obtain rfl : k = 0 := Nat.le_zero.mp enough
      exact within.ended
  | cons m moves ih =>
      have alive' : Move.restart i ∉ moves := fun later => alive (List.mem_cons_of_mem _ later)
      cases own : Move.of i m with
      | true =>
          rw [List.countP_cons_of_pos own] at enough
          exact ih (within_step (within.mono (by omega : k ≤ (k - 1) + 1)) own) alive' (by omega)
      | false =>
          rw [List.countP_cons_of_neg (by simp [own])] at enough
          have same : (n.step serve program m).session i = n.session i :=
            session_step own fun here => alive (here ▸ List.mem_cons_self)
          exact ih (same ▸ within) alive' enough

end Network

end PaymentsPlatform.Interaction
