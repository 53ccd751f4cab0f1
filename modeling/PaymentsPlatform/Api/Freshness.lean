import PaymentsPlatform.Api.Concurrency

/-!
# How recent a response is

The commits to gold up to a moment of a run are a suffix of the later ones. A request can
serve, under the snapshot it looked up, an answer that was computed on a later snapshot:
its own, or one that another request put in the cache under the same id. It cannot serve
an earlier one (`fresh_response`): the answers attributed to a snapshot were computed at
that snapshot or after it, however late they were put, and whatever the cache was scoped
to in between.
-/

namespace PaymentsPlatform.Api

variable {ι : Type}

/-- The snapshot id was once the newest one. -/
def LookedUp (commits : List (String × List GoldRow)) (snapshotId : Option String) : Prop :=
  ∃ looked, looked <:+ commits ∧ (currentGold looked).snapshotId = snapshotId

/-- A value that a request with this key computed on gold as it was at or after the
snapshot it is attributed to. -/
def Attributed (ask : ι → Checked) (commits : List (String × List GoldRow))
    (snapshotId : Option String) (key : String) (value : Value) : Prop :=
  ∃ looked seen, looked <:+ seen ∧ seen <:+ commits ∧
    (currentGold looked).snapshotId = snapshotId ∧
    ∃ j, (ask j).key = key ∧ value = (ask j).build (currentGold seen).table

/-- What a request has is attributed to the snapshot it looked up, and so will be what it
computes. -/
def Phase.Attributed (codec : CursorCodec) (ask : ι → Checked)
    (commits : List (String × List GoldRow)) (i : ι) : Phase → Prop
  | .start => True
  | .lookedUp snapshotId => LookedUp commits snapshotId
  | .missed snapshotId => LookedUp commits snapshotId
  | .computed snapshotId value => Api.Attributed ask commits snapshotId (ask i).key value
  | .holding snapshotId value => Api.Attributed ask commits snapshotId (ask i).key value
  | .done snapshotId response => ∃ value, response = (ask i).respond codec snapshotId value ∧
      Api.Attributed ask commits snapshotId (ask i).key value

/-- What every state satisfies. -/
structure WellAttributed (codec : CursorCodec) (ask : ι → Checked) (s : Serving ι) : Prop where
  distinct : (s.commits.map Prod.fst).Nodup
  phases : ∀ i, (s.phase i).Attributed codec ask s.commits i
  entries : ∀ key value, (key, value) ∈ s.cache.entries.entries →
    Attributed ask s.commits s.cache.snapshotId key value

/-- Since the commits `began` a request has not looked up an earlier snapshot. -/
def LookedUpSince (began : List (String × List GoldRow)) (s : Serving ι) (i : ι) : Prop :=
  s.phase i = .start ∧ began <:+ s.commits ∨
    ∃ looked, began <:+ looked ∧ looked <:+ s.commits ∧
      (currentGold looked).snapshotId = (s.phase i).snapshotId

variable {codec : CursorCodec} {ask : ι → Checked} {s : Serving ι} {i : ι}
variable {commits commits' began : List (String × List GoldRow)}

theorem mem_of_currentGold {id : String} (h : (currentGold commits).snapshotId = some id) :
    id ∈ commits.map Prod.fst := by
  cases commits with
  | nil => cases h
  | cons c commits =>
      obtain rfl := Option.some.inj h
      exact List.mem_cons_self

/-- With distinct ids the newest one tells how many commits there were. -/
theorem suffix_unique (distinct : (commits.map Prod.fst).Nodup)
    {xs ys : List (String × List GoldRow)} (hx : xs <:+ commits) (hy : ys <:+ commits)
    (same : (currentGold xs).snapshotId = (currentGold ys).snapshotId) : xs = ys := by
  induction commits with
  | nil => rw [List.suffix_nil.mp hx, List.suffix_nil.mp hy]
  | cons c commits ih =>
      obtain ⟨fresh, distinct⟩ := List.nodup_cons.mp distinct
      have older : ∀ {zs}, zs <:+ commits → (currentGold zs).snapshotId ≠ some c.1 :=
        fun hz hid => fresh ((hz.map Prod.fst).subset (mem_of_currentGold hid))
      rcases List.suffix_cons_iff.mp hx with rfl | hx <;>
        rcases List.suffix_cons_iff.mp hy with rfl | hy
      · rfl
      · exact absurd same.symm (older hy)
      · exact absurd same (older hx)
      · exact ih distinct hx hy

theorem LookedUp.mono {snapshotId : Option String} (h : LookedUp commits snapshotId)
    (later : commits <:+ commits') : LookedUp commits' snapshotId := by
  obtain ⟨looked, hlooked, hid⟩ := h
  exact ⟨looked, hlooked.trans later, hid⟩

theorem Attributed.mono {snapshotId : Option String} {key : String} {value : Value}
    (h : Attributed ask commits snapshotId key value) (later : commits <:+ commits') :
    Attributed ask commits' snapshotId key value := by
  obtain ⟨looked, seen, order, hseen, rest⟩ := h
  exact ⟨looked, seen, order, hseen.trans later, rest⟩

theorem Phase.Attributed.mono {phase : Phase} (h : phase.Attributed codec ask commits i)
    (later : commits <:+ commits') : phase.Attributed codec ask commits' i := by
  cases phase with
  | start => trivial
  | lookedUp => exact LookedUp.mono h later
  | missed => exact LookedUp.mono h later
  | computed => exact Api.Attributed.mono h later
  | holding => exact Api.Attributed.mono h later
  | done =>
      obtain ⟨value, hresponse, hvalue⟩ := h
      exact ⟨value, hresponse, hvalue.mono later⟩

namespace WellAttributed

theorem init (codec : CursorCodec) (ask : ι → Checked) (capacity : Nat) :
    WellAttributed codec ask (Serving.init capacity) where
  distinct := List.nodup_nil
  phases _ := trivial
  entries _ _ h := by cases h

theorem commit [DecidableEq ι] (h : WellAttributed codec ask s) (id : String)
    (table : List GoldRow) :
    WellAttributed codec ask (servingEvent codec ask s (.commit id table)) := by
  rw [servingEvent]
  split
  · exact h
  · rename_i fresh
    have later := List.suffix_cons (id, table) s.commits
    exact ⟨List.nodup_cons.mpr ⟨fresh, h.distinct⟩, fun i => (h.phases i).mono later,
      fun key value hmem => (h.entries key value hmem).mono later⟩

private theorem moved [DecidableEq ι] (h : WellAttributed codec ask s) {cache : Cache}
    {phase : Phase} (entries : ∀ key value, (key, value) ∈ cache.entries.entries →
      Attributed ask s.commits cache.snapshotId key value)
    (attributed : phase.Attributed codec ask s.commits i) :
    WellAttributed codec ask
      { s with cache := cache, phase := Function.update s.phase i phase } where
  distinct := h.distinct
  phases := (Function.forall_update_iff s.phase (p := fun j phase =>
    phase.Attributed codec ask s.commits j)).mpr ⟨attributed, fun j _ => h.phases j⟩
  entries := entries

/-- A lookup in the cache leaves attributed entries. -/
private theorem entries_get (h : WellAttributed codec ask s) (snapshotId : Option String)
    (key : String) : ∀ key' value, (key', value) ∈ (s.cache.get snapshotId key).2.entries.entries →
      Attributed ask s.commits (s.cache.get snapshotId key).2.snapshotId key' value := by
  intro key' value hmem
  obtain ⟨same, hold⟩ := SnapshotCache.mem_get hmem
  rw [SnapshotCache.snapshotId_get, same]
  exact h.entries key' value hold

/-- What a request computes is attributed to the snapshot it looked up, whatever was
committed in between; what it finds in the cache is, because the entries are. -/
theorem advance [DecidableEq ι] (h : WellAttributed codec ask s) (i : ι) :
    WellAttributed codec ask (Api.advance codec ask s i) := by
  have attributed := h.phases i
  obtain ⟨cache, phase, step, heq⟩ := advance_cases codec ask s i
  rw [heq]
  cases step with
  | lookUp => exact h.moved h.entries ⟨s.commits, List.suffix_refl _, rfl⟩
  | @hit snapshotId value hphase found =>
      obtain ⟨rfl, hentry⟩ := SnapshotCache.get_some found
      exact h.moved (h.entries_get _ _) (h.entries _ _ hentry)
  | miss hphase =>
      rw [hphase] at attributed
      exact h.moved (h.entries_get _ _) attributed
  | read hphase =>
      rw [hphase] at attributed
      obtain ⟨looked, hlooked, hid⟩ := attributed
      exact h.moved h.entries ⟨looked, s.commits, hlooked, List.suffix_refl _, hid, i, rfl, rfl⟩
  | put hphase =>
      rw [hphase] at attributed
      refine h.moved (fun key value' hmem => ?_) attributed
      rw [SnapshotCache.snapshotId_put]
      rcases SnapshotCache.mem_put hmem with hnew | ⟨rfl, hold⟩
      · obtain ⟨rfl, rfl⟩ := Prod.mk.inj hnew
        exact attributed
      · exact h.entries key value' hold
  | @respond snapshotId value hphase =>
      rw [hphase] at attributed
      exact h.moved h.entries ⟨value, rfl, attributed⟩
  | stay hphase =>
      rw [hphase] at attributed
      exact h.moved h.entries attributed

/-- Every state of every run is well attributed. -/
theorem run [DecidableEq ι] (codec : CursorCodec) (ask : ι → Checked) (capacity : Nat)
    (events : List (ServingEvent ι)) :
    WellAttributed codec ask (Machine.run (servingEvent codec ask) (Serving.init capacity)
      events) := by
  refine Machine.run_invariant (init codec ask capacity) (fun s event h => ?_) events
  cases event with
  | commit id table => exact h.commit id table
  | advance i => exact h.advance i

end WellAttributed

/-- Commits are never taken back. -/
theorem commits_suffix [DecidableEq ι] (codec : CursorCodec) (ask : ι → Checked)
    (s : Serving ι) (event : ServingEvent ι) :
    s.commits <:+ (servingEvent codec ask s event).commits := by
  cases event with
  | commit id table =>
      rw [servingEvent]
      split
      · exact List.suffix_refl _
      · exact List.suffix_cons _ _
  | advance i =>
      obtain ⟨cache, phase, _, heq⟩ := advance_cases codec ask s i
      rw [servingEvent, heq]

theorem phase_advance_of_ne [DecidableEq ι] (codec : CursorCodec) (ask : ι → Checked)
    {j : ι} (other : i ≠ j) : (advance codec ask s j).phase i = s.phase i := by
  obtain ⟨cache, phase, _, heq⟩ := advance_cases codec ask s j
  rw [heq]
  exact Function.update_of_ne other _ _

/-- A request looks up the newest snapshot, -/
theorem phase_advance_of_start [DecidableEq ι] (codec : CursorCodec) (ask : ι → Checked)
    (started : s.phase i = .start) :
    (advance codec ask s i).phase i = .lookedUp (currentGold s.commits).snapshotId := by
  simp only [advance, started, Function.update_self]

/-- and keeps its id. -/
theorem snapshotId_advance [DecidableEq ι] (codec : CursorCodec) (ask : ι → Checked)
    (started : s.phase i ≠ .start) :
    ((advance codec ask s i).phase i).snapshotId = (s.phase i).snapshotId := by
  obtain ⟨cache, phase, step, heq⟩ := advance_cases codec ask s i
  rw [heq]
  show (Function.update s.phase i phase i).snapshotId = _
  rw [Function.update_self]
  cases step with
  | lookUp hphase => exact absurd hphase started
  | hit hphase _ => rw [hphase]; rfl
  | miss hphase => rw [hphase]; rfl
  | read hphase => rw [hphase]; rfl
  | put hphase => rw [hphase]; rfl
  | respond hphase => rw [hphase]; rfl
  | stay hphase => rw [hphase]

/-- A request that has looked up its snapshot keeps it, and one that has not will look up
one that is no earlier. -/
theorem LookedUpSince.step [DecidableEq ι] (codec : CursorCodec) (ask : ι → Checked)
    (h : LookedUpSince began s i) (event : ServingEvent ι) :
    LookedUpSince began (servingEvent codec ask s event) i := by
  have later := commits_suffix codec ask s event
  have kept : ∀ s' : Serving ι, s.commits <:+ s'.commits → s'.phase i = s.phase i →
      LookedUpSince began s' i := by
    intro s' later same
    rcases h with ⟨hstart, hbegan⟩ | ⟨looked, hbegan, hlooked, hid⟩
    · exact .inl ⟨same.trans hstart, hbegan.trans later⟩
    · exact .inr ⟨looked, hbegan, hlooked.trans later, same ▸ hid⟩
  cases event with
  | commit id table =>
      refine kept _ later ?_
      rw [servingEvent]
      split <;> rfl
  | advance j =>
      rcases eq_or_ne i j with rfl | other
      · rcases h with ⟨hstart, hbegan⟩ | ⟨looked, hbegan, hlooked, hid⟩
        · refine .inr ⟨s.commits, hbegan, later, ?_⟩
          rw [servingEvent, phase_advance_of_start codec ask hstart]
          rfl
        · by_cases hstart : s.phase i = .start
          · refine .inr ⟨s.commits, hbegan.trans hlooked, later, ?_⟩
            rw [servingEvent, phase_advance_of_start codec ask hstart]
            rfl
          · refine .inr ⟨looked, hbegan, hlooked.trans later, ?_⟩
            rw [servingEvent, snapshotId_advance codec ask hstart]
            exact hid
      · exact kept _ later (phase_advance_of_ne codec ask other)

theorem LookedUpSince.run [DecidableEq ι] (codec : CursorCodec) (ask : ι → Checked)
    (h : LookedUpSince began s i) (events : List (ServingEvent ι)) :
    LookedUpSince began (Machine.run (servingEvent codec ask) s events) i :=
  Machine.run_invariant (P := fun s => LookedUpSince began s i) h
    (fun _ event h => h.step codec ask event) events

/-- The response was computed, by this request or one with its key, on gold as it was
with some of the commits `now`, those of `began` among them. -/
def ComputedBetween (codec : CursorCodec) (ask : ι → Checked)
    (began now : List (String × List GoldRow)) (i : ι) (snapshotId : Option String)
    (response : Except ApiError Response) : Prop :=
  ∃ seen, began <:+ seen ∧ seen <:+ now ∧
    ∃ j, (ask j).key = (ask i).key ∧
      response = (ask i).respond codec snapshotId ((ask j).build (currentGold seen).table)

/-- In every run, what a request responds was computed on gold with the commits there were
when the request had not yet looked up its snapshot, or with more. -/
theorem fresh_response [DecidableEq ι] (codec : CursorCodec) (ask : ι → Checked)
    (capacity : Nat) (before after : List (ServingEvent ι)) (i : ι) (snapshotId : Option String)
    (response : Except ApiError Response)
    (begins : (Machine.run (servingEvent codec ask) (Serving.init capacity) before).phase i =
      .start)
    (responds : (Machine.run (servingEvent codec ask) (Serving.init capacity)
      (before ++ after)).phase i = .done snapshotId response) :
    ComputedBetween codec ask
      (Machine.run (servingEvent codec ask) (Serving.init capacity) before).commits
      (Machine.run (servingEvent codec ask) (Serving.init capacity) (before ++ after)).commits
      i snapshotId response := by
  have attributed := WellAttributed.run codec ask capacity (before ++ after)
  have since : LookedUpSince
      (Machine.run (servingEvent codec ask) (Serving.init capacity) before).commits
      (Machine.run (servingEvent codec ask) (Serving.init capacity) (before ++ after)) i := by
    rw [Machine.run_append]
    exact LookedUpSince.run codec ask (.inl ⟨begins, List.suffix_refl _⟩) after
  have phase := attributed.phases i
  rw [responds] at phase
  obtain ⟨value, rfl, looked, seen, hlooked, hseen, hid, j, hkey, rfl⟩ := phase
  refine ⟨seen, ?_, hseen, j, hkey, rfl⟩
  rcases since with ⟨hstart, _⟩ | ⟨looked', hbegan, hlooked', hid'⟩
  · rw [hstart] at responds
    cases responds
  · rw [responds] at hid'
    have same : looked' = looked := suffix_unique attributed.distinct hlooked'
      (hlooked.trans hseen) (hid'.trans hid.symm)
    exact (same ▸ hbegan).trans hlooked

/-- A commit comes between the lookup of the only request and its read, and the response
has the later table under the earlier id. -/
theorem fresh_response_commitBetween :
    ComputedBetween sampleCodec (fun _ : Unit => samplePage) [("1", sampleGold.table)]
      [("2", []), ("1", sampleGold.table)] () (some "1")
      (.ok (.page { data := [], nextCursor := none, snapshotId := some "1" })) :=
  fresh_response sampleCodec (fun _ : Unit => samplePage) 256 [.commit "1" sampleGold.table]
    [.advance (), .advance (), .commit "2" [], .advance (), .advance (), .advance ()] ()
    (some "1") (.ok (.page { data := [], nextCursor := none, snapshotId := some "1" })) rfl rfl

end PaymentsPlatform.Api
