import PaymentsPlatform.Api.Keys
import PaymentsPlatform.Machine.Run

/-!
# When the cache does not show

Requests are answered one after the other on one gold snapshot. The key collapses absent
and empty fields, and joins fields that can contain the separator, so that different
queries can share an entry. Apart from such a clash the cache is transparent
(`transparent_iff`).
-/

namespace PaymentsPlatform.Api

/-- Every entry is the answer to an accepted request with its key, on the table of the
snapshot the cache is scoped to. -/
def CacheHolds (accepted : Checked → Prop) (tableOf : Option String → List GoldRow)
    (cache : Cache) : Prop :=
  ∀ k v, (k, v) ∈ cache.entries.entries →
    ∃ a, accepted a ∧ a.key = k ∧ v = a.build (tableOf cache.snapshotId)

section CacheHolds

variable {accepted : Checked → Prop} {tableOf : Option String → List GoldRow} {cache : Cache}
variable {snapshotId : Option String} {key : String} {value : Value} {a : Checked}

theorem cacheHolds_empty (capacity : Nat) :
    CacheHolds accepted tableOf (SnapshotCache.empty capacity) :=
  fun _ _ h => by cases h

namespace CacheHolds

theorem hit (h : CacheHolds accepted tableOf cache)
    (found : (cache.get snapshotId key).1 = some value) :
    ∃ a, accepted a ∧ a.key = key ∧ value = a.build (tableOf snapshotId) := by
  obtain ⟨rfl, hmem⟩ := SnapshotCache.get_some found
  exact h key value hmem

theorem get (h : CacheHolds accepted tableOf cache) (snapshotId : Option String) (key : String) :
    CacheHolds accepted tableOf (cache.get snapshotId key).2 := by
  intro k v hmem
  obtain ⟨same, hold⟩ := SnapshotCache.mem_get hmem
  rw [SnapshotCache.snapshotId_get, same]
  exact h k v hold

theorem put (h : CacheHolds accepted tableOf cache) (ha : accepted a)
    (hvalue : value = a.build (tableOf snapshotId)) :
    CacheHolds accepted tableOf (cache.put snapshotId a.key value) := by
  intro k v hmem
  rw [SnapshotCache.snapshotId_put]
  rcases SnapshotCache.mem_put hmem with hnew | ⟨rfl, hold⟩
  · obtain ⟨rfl, rfl⟩ := Prod.mk.inj hnew
    exact ⟨a, ha, rfl, hvalue⟩
  · exact h k v hold

/-- A cached answer is that of some accepted request with the same key. -/
theorem cached (h : CacheHolds accepted tableOf cache) (ha : accepted a)
    (snapshotId : Option String) :
    (∃ b, accepted b ∧ b.key = a.key ∧
      (Api.cached cache a.key snapshotId (a.build (tableOf snapshotId))).1 =
        b.build (tableOf snapshotId)) ∧
    CacheHolds accepted tableOf
      (Api.cached cache a.key snapshotId (a.build (tableOf snapshotId))).2 := by
  have after := h.get snapshotId a.key
  unfold Api.cached
  split
  · rename_i hit cache' heq
    rw [heq] at after
    exact ⟨h.hit (by rw [heq]), after⟩
  · rename_i cache' heq
    rw [heq] at after
    exact ⟨⟨a, ha, rfl, rfl⟩, after.put ha rfl⟩

end CacheHolds

end CacheHolds

/-- The request passes its checks. -/
def Accepted (codec : CursorCodec) (requests : List Request) (a : Checked) : Prop :=
  ∃ r ∈ requests, r.check codec = .ok a

/-- Every response of a sequence is that of the bypass. -/
def Transparent (codec : CursorCodec) (gold : Gold) (capacity : Nat) (requests : List Request) :
    Prop :=
  Machine.Along (fun cache r => (serve codec gold cache r).2)
    (fun cache r => (serve codec gold cache r).1 = bypass codec gold r)
    (SnapshotCache.empty capacity) requests

/-- Accepted requests share a key only when they compile to the same SQL. -/
def KeysTellApart (codec : CursorCodec) (requests : List Request) : Prop :=
  ∀ a b, Accepted codec requests a → Accepted codec requests b → a.key = b.key → a.sql = b.sql

/-- The requests go to one endpoint with one window, ask different questions, and have
one text of country, method, limit and cursor. -/
structure Clash (a b : Checked) : Prop where
  endpoint : a.endpoint = b.endpoint
  start : a.filters.start = b.filters.start
  end_ : a.filters.end_ = b.filters.end_
  text : a.freeText = b.freeText
  different : ¬SameQuery a b

variable {codec : CursorCodec} {gold : Gold} {requests : List Request}

private theorem keysTellApart_iff : KeysTellApart codec requests ↔
    ∀ a b, Accepted codec requests a → Accepted codec requests b → ¬Clash a b := by
  refine forall₄_congr fun a b _ _ => ?_
  rw [key_eq_iff]
  constructor
  · rintro same ⟨endpoint, start, end_, text, different⟩
    exact different (sameQuery_of_sql endpoint start end_ (same ⟨endpoint, start, end_, text⟩))
  · rintro none ⟨endpoint, start, end_, text⟩
    by_contra different
    exact none ⟨endpoint, start, end_, text, fun same => different same.sql_eq⟩

/-- A request without a clash is answered as with the cache bypassed. -/
private theorem serve_eq_bypass (tellApart : KeysTellApart codec requests) {cache : Cache}
    (h : CacheHolds (Accepted codec requests) (fun _ => gold.table) cache) {r : Request}
    (hr : r ∈ requests) : (serve codec gold cache r).1 = bypass codec gold r ∧
      CacheHolds (Accepted codec requests) (fun _ => gold.table) (serve codec gold cache r).2 := by
  unfold serve bypass
  cases hcheck : r.check codec with
  | error e => exact ⟨rfl, h⟩
  | ok a =>
      have ha : Accepted codec requests a := ⟨r, hr, hcheck⟩
      obtain ⟨⟨b, hb, hkey, hvalue⟩, after⟩ := h.cached ha gold.snapshotId
      have endpoint := key_eq_iff.mp hkey
      have same := sameQuery_of_sql endpoint.1 endpoint.2.1 endpoint.2.2.1
        (tellApart b a hb ha hkey)
      exact ⟨congrArg (a.respond codec gold.snapshotId) (hvalue.trans same.build_eq), after⟩

/-- For every sequence of requests on one gold snapshot: the cache is transparent at
every capacity, with keys that tell different queries apart, exactly when no two
accepted requests clash. -/
theorem transparent_iff (codec : CursorCodec) (gold : Gold) (requests : List Request) :
    ((∀ capacity, Transparent codec gold capacity requests) ∧ KeysTellApart codec requests) ↔
      ∀ a b, Accepted codec requests a → Accepted codec requests b → ¬Clash a b := by
  rw [← keysTellApart_iff]
  refine and_iff_right_of_imp fun tellApart capacity => ?_
  exact Machine.along_of_invariant (cacheHolds_empty capacity)
    fun cache h r hr => serve_eq_bypass tellApart h hr

/-- One row of gold. -/
def sampleGold : Gold where
  snapshotId := some "1"
  table := [{ paymentHour := ⟨.sample, 3, 0, 0, 0, none, by decide, by simp⟩,
              countryCode := "NL", paymentMethod := "ideal", paymentCount := 1,
              grossVolume := 100, authRate := 1 }]

/-- No cursor is decoded or encoded. -/
def sampleCodec : CursorCodec where
  encode _ := ""
  decode _ := .error "malformed cursor"

/-- The first page without a payment method, and with an empty one. -/
def absentThenEmpty : List Request :=
  [{ filters := ⟨none, none, none, none⟩, page := some { limit := 100, cursor := none } },
   { filters := ⟨none, none, none, some ""⟩, page := some { limit := 100, cursor := none } }]

/-- The second request gets the row of the first one; without the cache it gets none. -/
theorem absentThenEmpty_not_transparent :
    ¬Transparent sampleCodec sampleGold 256 absentThenEmpty := by
  intro transparent
  obtain ⟨_, rest⟩ := Machine.along_cons.mp transparent
  obtain ⟨second, _⟩ := Machine.along_cons.mp rest
  exact absurd second (by decide)

end PaymentsPlatform.Api
