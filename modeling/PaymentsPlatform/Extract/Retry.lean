import Mathlib

/-!
# Retrying the rate request

`_get_json_with_retry` of `snowflake_etl/src/extract_fx_rates.py`. What is raised for a
permanent 4xx is an exception of the same class as that for a transient failure, and is
raised inside the same `try`, so that it is retried. The policy is followed when no such
answer comes before the last attempt (`getJson_follows_iff`). What a run does is determined
by the attempt it stops at (`Stops.trace_eq`).
-/

namespace PaymentsPlatform.Extract

/-- What one attempt meets: a connection error or a timeout, or a response, whose body may
be JSON. -/
inductive Attempt (J : Type) where
  | requestError
  | response (statusCode : Nat) (body : Option J)

/-- The exceptions that are caught. -/
inductive AttemptError where
  | requestError
  | transient (statusCode : Nat)
  | status (statusCode : Nat)
  | invalidJson
  deriving DecidableEq, Repr

/-- The `RuntimeError` with the number of attempts and the last error, or the
`OverflowError` of a pause. -/
inductive RetryError where
  | failed (maxAttempts : Nat) (lastError : Option AttemptError)
  | overflow
  deriving DecidableEq, Repr

/-- What the outside sees. -/
inductive Event where
  | request
  | sleep (delay : ℚ)
  deriving DecidableEq, Repr

structure Trace (J : Type) where
  events : List Event
  result : Except RetryError J

section Loop

variable {J : Type} (raisesForStatus : Nat → Bool) (pauses : Nat → Bool) (baseDelay : ℚ)
variable (outcomes : Nat → Attempt J) (maxAttempts : Nat)

/-- The body of the `try`. -/
def attemptJson : Attempt J → Except AttemptError J
  | .requestError => .error .requestError
  | .response statusCode body =>
      if statusCode = 429 ∨ 500 ≤ statusCode then .error (.transient statusCode)
      else if raisesForStatus statusCode then .error (.status statusCode)
      else
        match body with
        | some json => .ok json
        | none => .error .invalidJson

/-- The pause behind an attempt doubles from one to the next. -/
def delay (attempt : Nat) : ℚ := baseDelay * 2 ^ (attempt - 1)

/-- The loop from an attempt on, with some left behind it; `pauses` tells whether the pause
behind an attempt can be made. -/
def attemptFrom (attempt : Nat) : Nat → Trace J
  | 0 =>
      match attemptJson raisesForStatus (outcomes attempt) with
      | .ok json => { events := [.request], result := .ok json }
      | .error e => { events := [.request], result := .error (.failed maxAttempts (some e)) }
  | left + 1 =>
      match attemptJson raisesForStatus (outcomes attempt) with
      | .ok json => { events := [.request], result := .ok json }
      | .error _ =>
          if pauses attempt then
            let rest := attemptFrom (attempt + 1) left
            { events := .request :: .sleep (delay baseDelay attempt) :: rest.events
              result := rest.result }
          else { events := [.request], result := .error .overflow }

def getJsonWithRetry : Trace J :=
  match maxAttempts with
  | 0 => { events := [], result := .error (.failed maxAttempts none) }
  | left + 1 => attemptFrom raisesForStatus pauses baseDelay outcomes maxAttempts 1 left

end Loop

section Policy

variable {J : Type}

/-- A success with valid JSON. -/
def Attempt.Succeeds (a : Attempt J) (json : J) : Prop :=
  ∃ statusCode < 400, a = .response statusCode (some json)

/-- A 4xx other than 429. -/
def Attempt.Permanent (a : Attempt J) : Prop :=
  ∃ statusCode body, (400 ≤ statusCode ∧ statusCode < 500 ∧ statusCode ≠ 429) ∧
    a = .response statusCode body

/-- An outcome that is not worth retrying. -/
def Attempt.Final (a : Attempt J) : Prop := (∃ json, a.Succeeds json) ∨ a.Permanent

/-- The attempt that the policy ends with. -/
structure LastAttempt (outcomes : Nat → Attempt J) (maxAttempts n : Nat) : Prop where
  positive : 1 ≤ n
  bound : n ≤ maxAttempts
  before : ∀ k, 1 ≤ k → k < n → ¬(outcomes k).Final
  final : n < maxAttempts → (outcomes n).Final

/-- Some requests with the pauses between them, from an attempt on. -/
def spaced (baseDelay : ℚ) (attempt : Nat) : Nat → List Event
  | 0 => [.request]
  | n + 1 => .request :: .sleep (delay baseDelay attempt) :: spaced baseDelay (attempt + 1) n

/-- The policy, for the trace of a call. -/
def Follows (baseDelay : ℚ) (outcomes : Nat → Attempt J) (maxAttempts : Nat) (trace : Trace J) :
    Prop :=
  ∃ n, LastAttempt outcomes maxAttempts n ∧ trace.events = spaced baseDelay 1 (n - 1) ∧
    ∀ json, trace.result = .ok json ↔ (outcomes n).Succeeds json

/-- The pauses in front of the attempt the policy ends with can be made, and this attempt
meets no permanent 4xx that can be retried. -/
def Retryable (pauses : Nat → Bool) (outcomes : Nat → Attempt J) (maxAttempts : Nat) : Prop :=
  ∀ n, LastAttempt outcomes maxAttempts n → (∀ k, 1 ≤ k → k < n → pauses k = true) ∧
    ¬(n < maxAttempts ∧ (outcomes n).Permanent ∧ pauses n = true)

end Policy

section Run

variable {J : Type} {raisesForStatus pauses : Nat → Bool} {baseDelay : ℚ}
variable {outcomes : Nat → Attempt J} {maxAttempts attempt left m n : Nat} {json : J}

/-- `raise_for_status` on the codes below 500. -/
structure Documented (raisesForStatus : Nat → Bool) : Prop where
  success : ∀ statusCode < 400, raisesForStatus statusCode = false
  clientError : ∀ statusCode, 400 ≤ statusCode → statusCode < 500 →
    raisesForStatus statusCode = true

theorem attemptJson_eq_ok (documented : Documented raisesForStatus) {a : Attempt J} :
    attemptJson raisesForStatus a = .ok json ↔ a.Succeeds json := by
  constructor
  · intro h
    cases a with
    | requestError => cases h
    | response statusCode body =>
        simp only [attemptJson] at h
        split at h
        · cases h
        · split at h
          · cases h
          · rename_i lasting quiet
            have small : statusCode < 400 := by
              by_contra large
              exact quiet (documented.clientError statusCode (by omega) (by omega))
            cases body with
            | none => cases h
            | some body =>
                obtain rfl := Except.ok.inj h
                exact ⟨statusCode, small, rfl⟩
  · rintro ⟨statusCode, small, rfl⟩
    simp only [attemptJson, if_neg (show ¬(statusCode = 429 ∨ 500 ≤ statusCode) by omega),
      documented.success statusCode small]
    rfl

/-- The attempt that the loop stops at: none before it succeeds or has a pause that cannot
be made. -/
structure Stops (raisesForStatus pauses : Nat → Bool) (outcomes : Nat → Attempt J)
    (attempt left m : Nat) : Prop where
  lower : attempt ≤ m
  upper : m ≤ attempt + left
  before : ∀ k, attempt ≤ k → k < m →
    (∀ json, attemptJson raisesForStatus (outcomes k) ≠ .ok json) ∧ pauses k = true
  stop : m < attempt + left →
    (∃ json, attemptJson raisesForStatus (outcomes m) = .ok json) ∨ pauses m = false

/-- A run is determined by the attempt it stops at. -/
theorem exists_stops (raisesForStatus pauses : Nat → Bool) (baseDelay : ℚ)
    (outcomes : Nat → Attempt J) (maxAttempts attempt left : Nat) :
    ∃ m, Stops raisesForStatus pauses outcomes attempt left m ∧
      (attemptFrom raisesForStatus pauses baseDelay outcomes maxAttempts attempt left).events =
        spaced baseDelay attempt (m - attempt) ∧
      ∀ json,
        (attemptFrom raisesForStatus pauses baseDelay outcomes maxAttempts attempt left).result =
            .ok json ↔
          attemptJson raisesForStatus (outcomes m) = .ok json := by
  induction left generalizing attempt with
  | zero =>
      refine ⟨attempt, ⟨le_refl _, le_refl _, by omega, by omega⟩, ?_⟩
      rw [attemptFrom, Nat.sub_self]
      cases h : attemptJson raisesForStatus (outcomes attempt) with
      | ok body => exact ⟨rfl, by simp⟩
      | error e => exact ⟨rfl, by simp⟩
  | succ left ih =>
      rw [attemptFrom]
      cases h : attemptJson raisesForStatus (outcomes attempt) with
      | ok body =>
          refine ⟨attempt, ⟨le_refl _, by omega, by omega, fun _ => .inl ⟨body, h⟩⟩, ?_⟩
          rw [Nat.sub_self, h]
          exact ⟨rfl, by simp⟩
      | error e =>
          by_cases pause : pauses attempt = true
          · obtain ⟨m, ⟨lower, upper, before, stop⟩, events, result⟩ := ih (attempt + 1)
            refine ⟨m, ⟨by omega, by omega, ?_, fun early => stop (by omega)⟩, ?_⟩
            · intro k hk hm
              rcases Nat.eq_or_lt_of_le hk with rfl | later
              · refine ⟨fun json ok => ?_, pause⟩
                rw [h] at ok
                cases ok
              · exact before k later hm
            · simp only [if_pos pause]
              refine ⟨?_, result⟩
              rw [events, show m - attempt = m - (attempt + 1) + 1 by omega, spaced]
          · have unmade : pauses attempt = false := by simpa using pause
            refine ⟨attempt, ⟨le_refl _, by omega, by omega, fun _ => .inr unmade⟩, ?_⟩
            simp only [if_neg pause, Nat.sub_self, h]
            exact ⟨rfl, by simp⟩

theorem length_spaced (baseDelay : ℚ) (attempt n : Nat) :
    (spaced baseDelay attempt n).length = 2 * n + 1 := by
  induction n generalizing attempt with
  | zero => rfl
  | succ n ih =>
      simp only [spaced, List.length_cons, ih]
      omega

/-- There is one attempt that the policy ends with. -/
theorem exists_lastAttempt (positive : 1 ≤ maxAttempts) :
    ∃ n, LastAttempt outcomes maxAttempts n := by
  classical
  by_cases final : ∃ k, 1 ≤ k ∧ k ≤ maxAttempts ∧ (outcomes k).Final
  · refine ⟨Nat.find final, (Nat.find_spec final).1, (Nat.find_spec final).2.1, ?_,
      fun _ => (Nat.find_spec final).2.2⟩
    intro k hk earlier hfinal
    have bound := (Nat.find_spec final).2.1
    exact Nat.find_min final earlier ⟨hk, by omega, hfinal⟩
  · refine ⟨maxAttempts, positive, le_refl _, fun k hk earlier hfinal => ?_, by omega⟩
    exact final ⟨k, hk, by omega, hfinal⟩

theorem not_succeeds_of_permanent {a : Attempt J} (permanent : a.Permanent) :
    ¬a.Succeeds json := by
  obtain ⟨statusCode, body, range, rfl⟩ := permanent
  rintro ⟨other, small, same⟩
  obtain ⟨rfl, -⟩ := Attempt.response.inj same
  omega

/-- Where the policy ends the loop stops, unless a permanent 4xx can be retried. -/
theorem Stops.eq_lastAttempt (documented : Documented raisesForStatus)
    (stops : Stops raisesForStatus pauses outcomes 1 left m)
    (last : LastAttempt outcomes (left + 1) n) (made : ∀ k, 1 ≤ k → k < n → pauses k = true)
    (apart : ¬(n < left + 1 ∧ (outcomes n).Permanent ∧ pauses n = true)) : m = n := by
  have positive := last.positive
  have bound := last.bound
  have lower := stops.lower
  have upper := stops.upper
  rcases Nat.lt_trichotomy m n with early | same | late
  · exfalso
    rcases stops.stop (by omega) with ⟨json, ok⟩ | unmade
    · exact last.before m lower early (.inl ⟨json, (attemptJson_eq_ok documented).mp ok⟩)
    · rw [made m lower early] at unmade
      cases unmade
  · exact same
  · exfalso
    obtain ⟨failed, pause⟩ := stops.before n positive late
    rcases last.final (by omega) with ⟨json, succeeds⟩ | permanent
    · exact failed json ((attemptJson_eq_ok documented).mpr succeeds)
    · exact apart ⟨by omega, permanent, pause⟩

/-- A call follows the policy exactly when the pauses it needs can be made and no permanent
4xx that ends the policy can be retried. -/
theorem getJson_follows_iff (raisesForStatus pauses : Nat → Bool)
    (documented : Documented raisesForStatus) (baseDelay : ℚ) (outcomes : Nat → Attempt J)
    (maxAttempts : Nat) (positive : 1 ≤ maxAttempts) :
    Follows baseDelay outcomes maxAttempts
        (getJsonWithRetry raisesForStatus pauses baseDelay outcomes maxAttempts) ↔
      Retryable pauses outcomes maxAttempts := by
  obtain ⟨left, rfl⟩ : ∃ left, maxAttempts = left + 1 := ⟨maxAttempts - 1, by omega⟩
  obtain ⟨m, stops, events, result⟩ :=
    exists_stops raisesForStatus pauses baseDelay outcomes (left + 1) 1 left
  rw [getJsonWithRetry]
  constructor
  · rintro ⟨n, last, hevents, -⟩ n' last'
    obtain rfl : n = n' := by
      have := last.bound
      have := last'.bound
      rcases Nat.lt_trichotomy n n' with early | same | late
      · exact absurd (last.final (by omega)) (last'.before n last.positive early)
      · exact same
      · exact absurd (last'.final (by omega)) (last.before n' last'.positive late)
    obtain rfl : m = n := by
      have lengths := congrArg List.length (events.symm.trans hevents)
      rw [length_spaced, length_spaced] at lengths
      have := last.positive
      have := stops.lower
      omega
    refine ⟨fun k hk earlier => (stops.before k hk earlier).2, ?_⟩
    rintro ⟨early, permanent, pause⟩
    rcases stops.stop (by omega) with ⟨json, ok⟩ | unmade
    · exact not_succeeds_of_permanent permanent ((attemptJson_eq_ok documented).mp ok)
    · rw [pause] at unmade
      cases unmade
  · intro retryable
    have exists_last : ∃ n, LastAttempt outcomes (left + 1) n := exists_lastAttempt positive
    obtain ⟨n, last⟩ := exists_last
    obtain ⟨made, apart⟩ := retryable n last
    obtain rfl := stops.eq_lastAttempt documented last made apart
    exact ⟨m, last, events, fun json => (result json).trans (attemptJson_eq_ok documented)⟩

/-- The codes on which `raise_for_status` raises. -/
def raisesFrom400 (statusCode : Nat) : Bool := decide (400 ≤ statusCode ∧ statusCode < 600)

theorem documented_raisesFrom400 : Documented raisesFrom400 where
  success statusCode small := decide_eq_false (by omega)
  clientError statusCode large small := decide_eq_true (by omega)

/-- A request that meets a 503 and then succeeds. -/
def recovering : Nat → Attempt Nat
  | 1 => .response 503 none
  | _ => .response 200 (some 7)

theorem getJson_follows_iff_recovering :
    Follows 1 recovering 5 (getJsonWithRetry raisesFrom400 (fun _ => true) 1 recovering 5) := by
  refine (getJson_follows_iff raisesFrom400 (fun _ => true) documented_raisesFrom400 1 recovering
    5 (by decide)).mpr fun n _ => ⟨fun _ _ _ => rfl, ?_⟩
  rintro ⟨_, ⟨code, body, refused, met⟩, _⟩
  unfold recovering at met
  split at met <;> cases met <;> omega

/-- A 404 is answered by a second request. -/
theorem permanent_retried :
    let notFound : Nat → Attempt Nat := fun _ => .response 404 none
    let trace := getJsonWithRetry raisesFrom400 (fun _ => true) 1 notFound 2
    trace.events = [.request, .sleep (delay 1 1), .request] ∧ ¬Follows 1 notFound 2 trace := by
  refine ⟨rfl, ?_⟩
  rintro ⟨n, last, events, -⟩
  have permanent : (Attempt.response (J := Nat) 404 none).Permanent := ⟨404, none, by decide, rfl⟩
  have first : n = 1 := by
    have := last.positive
    by_contra later
    exact last.before 1 (le_refl _) (by omega) (.inr permanent)
  have lengths := congrArg List.length events
  rw [length_spaced, first] at lengths
  exact absurd lengths (by decide)

end Run

end PaymentsPlatform.Extract
