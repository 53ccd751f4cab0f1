import PaymentsPlatform.Api.Transparency

/-!
# Requests between gold commits

Requests run concurrently with each other and with commits to gold. A request looks up
the newest snapshot id, asks the cache, on a miss reads the table that is current by
then, puts the answer under the id it looked up, and responds. A commit between the
lookup and the read attributes the new table to the old id; without one, every response
and every entry is that of its snapshot (`responses_match`).
-/

namespace PaymentsPlatform.Api

/-- How far a request is, with the snapshot id it looked up. -/
inductive Phase where
  | start
  | lookedUp (snapshotId : Option String)
  | missed (snapshotId : Option String)
  | computed (snapshotId : Option String) (value : Value)
  | holding (snapshotId : Option String) (value : Value)
  | done (snapshotId : Option String) (response : Except ApiError Response)

/-- The commits to gold, newest first, the cache, and the requests. -/
structure Serving (ι : Type) where
  commits : List (String × List GoldRow)
  cache : Cache
  phase : ι → Phase

/-- A commit, or the next step of a request. -/
inductive ServingEvent (ι : Type) where
  | commit (snapshotId : String) (table : List GoldRow)
  | advance (i : ι)

/-- The newest snapshot; without one the table is empty. -/
def currentGold : List (String × List GoldRow) → Gold
  | [] => { snapshotId := none, table := [] }
  | (id, table) :: _ => { snapshotId := some id, table := table }

/-- The table of a snapshot. -/
def tableOf (commits : List (String × List GoldRow)) : Option String → List GoldRow
  | none => []
  | some id => (commits.lookup id).getD []

variable {ι : Type}

def Serving.init (capacity : Nat) : Serving ι where
  commits := []
  cache := SnapshotCache.empty capacity
  phase _ := .start

/-- The next step of a request. -/
def advance [DecidableEq ι] (codec : CursorCodec) (ask : ι → Checked) (s : Serving ι) (i : ι) :
    Serving ι :=
  let become (phase : Phase) := Function.update s.phase i phase
  match s.phase i with
  | .start => { s with phase := become (.lookedUp (currentGold s.commits).snapshotId) }
  | .lookedUp snapshotId =>
      match s.cache.get snapshotId (ask i).key with
      | (some hit, cache) => { s with cache := cache, phase := become (.holding snapshotId hit) }
      | (none, cache) => { s with cache := cache, phase := become (.missed snapshotId) }
  | .missed snapshotId =>
      { s with
        phase := become (.computed snapshotId ((ask i).build (currentGold s.commits).table)) }
  | .computed snapshotId value =>
      { s with
        cache := s.cache.put snapshotId (ask i).key value
        phase := become (.holding snapshotId value) }
  | .holding snapshotId value =>
      { s with phase := become (.done snapshotId ((ask i).respond codec snapshotId value)) }
  | .done .. => s

/-- A commit has a new snapshot id. -/
def servingEvent [DecidableEq ι] (codec : CursorCodec) (ask : ι → Checked) (s : Serving ι) :
    ServingEvent ι → Serving ι
  | .commit id table =>
      if id ∈ s.commits.map Prod.fst then s else { s with commits := (id, table) :: s.commits }
  | .advance i => advance codec ask s i

/-- Responses and entries are those of their snapshots. -/
structure Matches (codec : CursorCodec) (ask : ι → Checked) (s : Serving ι) : Prop where
  responses : ∀ i snapshotId response, s.phase i = .done snapshotId response →
    response = (ask i).respond codec snapshotId ((ask i).build (tableOf s.commits snapshotId))
  entries : CacheHolds (fun a => ∃ i, ask i = a) (tableOf s.commits) s.cache

/-- A request that reads gold still finds the snapshot it looked up. -/
def ReadsItsSnapshot (s : Serving ι) : ServingEvent ι → Prop
  | .commit .. => True
  | .advance i =>
      match s.phase i with
      | .missed snapshotId => (currentGold s.commits).snapshotId = snapshotId
      | _ => True

/-- The snapshot a request has looked up. -/
def Phase.snapshotId : Phase → Option String
  | .start => none
  | .lookedUp snapshotId => snapshotId
  | .missed snapshotId => snapshotId
  | .computed snapshotId _ => snapshotId
  | .holding snapshotId _ => snapshotId
  | .done snapshotId _ => snapshotId

/-- What a request has is what its snapshot says. -/
def Phase.Holds (codec : CursorCodec) (a : Checked) (tableOf : Option String → List GoldRow) :
    Phase → Prop
  | .computed snapshotId value => value = a.build (tableOf snapshotId)
  | .holding snapshotId value => value = a.build (tableOf snapshotId)
  | .done snapshotId response =>
      response = a.respond codec snapshotId (a.build (tableOf snapshotId))
  | _ => True

/-- There is such a snapshot. -/
def Known (s : Serving ι) (snapshotId : Option String) : Prop :=
  ∀ id, snapshotId = some id → id ∈ s.commits.map Prod.fst

/-- What every state satisfies. -/
structure ServingSound (codec : CursorCodec) (ask : ι → Checked) (s : Serving ι) : Prop where
  known : ∀ i, Known s (s.phase i).snapshotId
  scope : Known s s.cache.snapshotId
  phases : ∀ i, (s.phase i).Holds codec (ask i) (tableOf s.commits)
  entries : CacheHolds (fun a => ∃ i, ask i = a) (tableOf s.commits) s.cache

variable {codec : CursorCodec} {ask : ι → Checked} {s : Serving ι} {i : ι}

theorem tableOf_current (commits : List (String × List GoldRow)) :
    tableOf commits (currentGold commits).snapshotId = (currentGold commits).table := by
  cases commits with
  | nil => rfl
  | cons c commits =>
      obtain ⟨id, table⟩ := c
      rw [currentGold, tableOf, List.lookup_cons, beq_self_eq_true]
      rfl

theorem known_current (s : Serving ι) : Known s (currentGold s.commits).snapshotId := by
  intro id h
  cases hcommits : s.commits with
  | nil => rw [hcommits] at h; cases h
  | cons c commits =>
      rw [hcommits] at h
      obtain rfl := Option.some.inj h
      exact List.mem_cons_self

/-- A commit does not change the tables of the snapshots there are. -/
theorem tableOf_commit {id : String} {table : List GoldRow} {snapshotId : Option String}
    (fresh : id ∉ s.commits.map Prod.fst) (known : Known s snapshotId) :
    tableOf ((id, table) :: s.commits) snapshotId = tableOf s.commits snapshotId := by
  cases snapshotId with
  | none => rfl
  | some other =>
      have different : other ≠ id := fun same => fresh (same ▸ known other rfl)
      rw [tableOf, tableOf, List.lookup_cons, beq_eq_false_iff_ne.mpr different]

/-- What the next step of a request leaves in the cache, and how far the request is then. -/
inductive Advances (codec : CursorCodec) (ask : ι → Checked) (s : Serving ι) (i : ι) :
    Cache → Phase → Prop where
  | lookUp (phase : s.phase i = .start) :
      Advances codec ask s i s.cache (.lookedUp (currentGold s.commits).snapshotId)
  | hit {snapshotId : Option String} {value : Value}
      (phase : s.phase i = .lookedUp snapshotId)
      (found : (s.cache.get snapshotId (ask i).key).1 = some value) :
      Advances codec ask s i (s.cache.get snapshotId (ask i).key).2 (.holding snapshotId value)
  | miss {snapshotId : Option String} (phase : s.phase i = .lookedUp snapshotId) :
      Advances codec ask s i (s.cache.get snapshotId (ask i).key).2 (.missed snapshotId)
  | read {snapshotId : Option String} (phase : s.phase i = .missed snapshotId) :
      Advances codec ask s i s.cache
        (.computed snapshotId ((ask i).build (currentGold s.commits).table))
  | put {snapshotId : Option String} {value : Value}
      (phase : s.phase i = .computed snapshotId value) :
      Advances codec ask s i (s.cache.put snapshotId (ask i).key value)
        (.holding snapshotId value)
  | respond {snapshotId : Option String} {value : Value}
      (phase : s.phase i = .holding snapshotId value) :
      Advances codec ask s i s.cache
        (.done snapshotId ((ask i).respond codec snapshotId value))
  | stay {snapshotId : Option String} {response : Except ApiError Response}
      (phase : s.phase i = .done snapshotId response) :
      Advances codec ask s i s.cache (.done snapshotId response)

/-- A step changes the cache and the request's own phase, and nothing else. -/
theorem advance_cases [DecidableEq ι] (codec : CursorCodec) (ask : ι → Checked)
    (s : Serving ι) (i : ι) : ∃ cache phase, Advances codec ask s i cache phase ∧
      advance codec ask s i =
        { s with cache := cache, phase := Function.update s.phase i phase } := by
  cases hphase : s.phase i with
  | start => exact ⟨_, _, .lookUp hphase, by simp only [advance, hphase]⟩
  | lookedUp snapshotId =>
      cases hget : s.cache.get snapshotId (ask i).key with
      | mk found cache =>
          cases found with
          | none =>
              refine ⟨_, _, .miss hphase, ?_⟩
              simp only [advance, hphase, hget]
          | some value =>
              refine ⟨_, _, .hit hphase (congrArg Prod.fst hget), ?_⟩
              simp only [advance, hphase, hget]
  | missed => exact ⟨_, _, .read hphase, by simp only [advance, hphase]⟩
  | computed => exact ⟨_, _, .put hphase, by simp only [advance, hphase]⟩
  | holding => exact ⟨_, _, .respond hphase, by simp only [advance, hphase]⟩
  | done =>
      refine ⟨_, _, .stay hphase, ?_⟩
      rw [← hphase, Function.update_eq_self]
      simp only [advance, hphase]

namespace ServingSound

theorem init (codec : CursorCodec) (ask : ι → Checked) (capacity : Nat) :
    ServingSound codec ask (Serving.init capacity) where
  known _ _ h := by cases h
  scope _ h := by cases h
  phases _ := trivial
  entries := cacheHolds_empty capacity

theorem commit [DecidableEq ι] (h : ServingSound codec ask s) (id : String)
    (table : List GoldRow) :
    ServingSound codec ask (servingEvent codec ask s (.commit id table)) := by
  rw [servingEvent]
  split
  · exact h
  · rename_i fresh
    refine ⟨fun i other hother => List.mem_cons_of_mem _ (h.known i other hother),
      fun other hother => List.mem_cons_of_mem _ (h.scope other hother), fun i => ?_,
      fun k v hmem => ?_⟩
    · have kept : tableOf ((id, table) :: s.commits) (s.phase i).snapshotId =
          tableOf s.commits (s.phase i).snapshotId := tableOf_commit fresh (h.known i)
      have old := h.phases i
      cases hphase : s.phase i with
      | start => trivial
      | lookedUp => trivial
      | missed => trivial
      | computed snapshotId value =>
          rw [hphase] at kept old
          exact old.trans (congrArg (ask i).build kept.symm)
      | holding snapshotId value =>
          rw [hphase] at kept old
          exact old.trans (congrArg (ask i).build kept.symm)
      | done snapshotId response =>
          rw [hphase] at kept old
          exact old.trans (congrArg (fun rows => (ask i).respond codec snapshotId
            ((ask i).build rows)) kept.symm)
    · obtain ⟨a, ha, hkey, hvalue⟩ := h.entries k v hmem
      exact ⟨a, ha, hkey, hvalue.trans
        (congrArg a.build (tableOf_commit fresh h.scope).symm)⟩

/-- A request that moves on with a sound answer and a sound cache. -/
private theorem moved [DecidableEq ι] (h : ServingSound codec ask s) {cache : Cache}
    {phase : Phase} (scope : Known s cache.snapshotId)
    (entries : CacheHolds (fun a => ∃ i, ask i = a) (tableOf s.commits) cache)
    (known : Known s phase.snapshotId) (holds : phase.Holds codec (ask i) (tableOf s.commits)) :
    ServingSound codec ask
      { s with cache := cache, phase := Function.update s.phase i phase } where
  known := (Function.forall_update_iff s.phase (p := fun _ phase =>
    Known s phase.snapshotId)).mpr ⟨known, fun j _ => h.known j⟩
  scope := scope
  phases := (Function.forall_update_iff s.phase (p := fun j phase =>
    phase.Holds codec (ask j) (tableOf s.commits))).mpr ⟨holds, fun j _ => h.phases j⟩
  entries := entries

/-- A lookup scopes the cache to a snapshot there is. -/
private theorem scope_get {snapshotId : Option String} (known : Known s snapshotId)
    (key : String) : Known s (s.cache.get snapshotId key).2.snapshotId := by
  rw [SnapshotCache.snapshotId_get]
  exact known

/-- What a request finds in the cache is what it would build. -/
private theorem hit_eq (apart : ∀ i j, ¬Clash (ask i) (ask j)) (h : ServingSound codec ask s)
    {snapshotId : Option String} {value : Value}
    (found : (s.cache.get snapshotId (ask i).key).1 = some value) :
    value = (ask i).build (tableOf s.commits snapshotId) := by
  obtain ⟨a, ⟨j, rfl⟩, hkey, hvalue⟩ := h.entries.hit found
  have same : SameQuery (ask j) (ask i) := by
    by_contra different
    obtain ⟨endpoint, start, end_, text⟩ := key_eq_iff.mp hkey
    exact apart j i ⟨endpoint, start, end_, text, different⟩
  exact hvalue.trans same.build_eq

/-- The next step of a request that reads its own snapshot keeps everything sound. -/
theorem advance [DecidableEq ι] (apart : ∀ i j, ¬Clash (ask i) (ask j))
    (h : ServingSound codec ask s) (reads : ReadsItsSnapshot s (.advance i)) :
    ServingSound codec ask (Api.advance codec ask s i) := by
  have known := h.known i
  have holds := h.phases i
  obtain ⟨cache, phase, step, heq⟩ := advance_cases codec ask s i
  rw [heq]
  cases step with
  | lookUp => exact h.moved h.scope h.entries (known_current s) trivial
  | @hit snapshotId value hphase found =>
      rw [hphase] at known
      exact h.moved (scope_get known _) (h.entries.get snapshotId (ask i).key) known
        (hit_eq apart h found)
  | @miss snapshotId hphase =>
      rw [hphase] at known
      exact h.moved (scope_get known _) (h.entries.get snapshotId (ask i).key) known trivial
  | @read snapshotId hphase =>
      rw [hphase] at known
      have current : (currentGold s.commits).snapshotId = snapshotId := by
        simpa only [ReadsItsSnapshot, hphase] using reads
      refine h.moved h.scope h.entries known ?_
      exact congrArg (ask i).build (by rw [← current, tableOf_current])
  | put hphase =>
      rw [hphase] at known holds
      refine h.moved ?_ (h.entries.put ⟨i, rfl⟩ holds) known holds
      rw [SnapshotCache.snapshotId_put]
      exact known
  | @respond snapshotId value hphase =>
      rw [hphase] at known holds
      exact h.moved h.scope h.entries known (congrArg ((ask i).respond codec snapshotId) holds)
  | stay hphase =>
      rw [hphase] at known holds
      exact h.moved h.scope h.entries known holds

theorem matches_ (h : ServingSound codec ask s) : Matches codec ask s where
  responses i snapshotId response hphase := by
    have holds := h.phases i
    rwa [hphase] at holds
  entries := h.entries

end ServingSound

/-- In every run in which each request that misses the cache reads gold while the
snapshot it looked up is the newest one, and no two requests clash, every response and
every cache entry is that of its snapshot, in every state. -/
theorem responses_match [DecidableEq ι] (codec : CursorCodec) (ask : ι → Checked)
    (capacity : Nat) (events : List (ServingEvent ι)) (apart : ∀ i j, ¬Clash (ask i) (ask j))
    (reads : Machine.Along (servingEvent codec ask) ReadsItsSnapshot (Serving.init capacity)
      events) :
    Machine.Always (servingEvent codec ask) (Matches codec ask) (Serving.init capacity) events := by
  refine (Machine.always_of_along (ServingSound.init codec ask capacity) ?_ reads).mono
    fun _ h => h.matches_
  intro s event h hreads
  cases event with
  | commit id table => exact h.commit id table
  | advance i => exact h.advance apart hreads

/-- A first page without filters. -/
def samplePage : Checked where
  filters := ⟨none, none, none, none⟩
  page := some { limit := 100, cursor := none, after := none }

/-- A commit comes before the lookup, and one after the response. -/
def undisturbed : List (ServingEvent Unit) :=
  [.commit "1" sampleGold.table, .advance (), .advance (), .advance (), .advance (), .advance (),
   .commit "2" []]

theorem responses_match_undisturbed : Matches sampleCodec (fun _ : Unit => samplePage)
    (Machine.run (servingEvent sampleCodec fun _ : Unit => samplePage) (Serving.init 256)
      undisturbed) := by
  refine (responses_match sampleCodec (fun _ : Unit => samplePage) 256 undisturbed ?_ ?_).final
  · intro i j clash
    exact clash.different ⟨rfl, rfl, rfl⟩
  · simp only [undisturbed, Machine.along_cons, Machine.along_nil, and_true]
    exact ⟨trivial, trivial, trivial, rfl, trivial, trivial, trivial⟩

/-- The second commit comes between the lookup and the read. -/
def commitBetween : List (ServingEvent Unit) :=
  [.commit "1" sampleGold.table, .advance (), .advance (), .commit "2" [], .advance (),
   .advance (), .advance ()]

/-- The response names snapshot 1 and has none of its rows. -/
theorem commitBetween_mismatches : ¬Machine.Always
    (servingEvent sampleCodec fun _ : Unit => samplePage)
    (Matches sampleCodec fun _ : Unit => samplePage) (Serving.init 256) commitBetween := by
  intro always
  have response := always.final.responses () (some "1") _ rfl
  exact absurd response (by decide)

end PaymentsPlatform.Api
