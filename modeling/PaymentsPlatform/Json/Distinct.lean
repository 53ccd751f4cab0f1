import PaymentsPlatform.Json.RoundTrip

/-!
# The keys of what was read

Every object that `json.loads` returns, at any depth, has distinct keys: a repeated key
replaces its value. The invariant is on the value that was just read and on the containers
around it (`Sound`), and every step keeps it.
-/

namespace PaymentsPlatform

namespace Json

/-- The keys of every object differ, at any depth. -/
inductive Distinct : Json → Prop
  | null : Distinct .null
  | bool (b : Bool) : Distinct (.bool b)
  | int (i : Int) : Distinct (.int i)
  | float (x : PyFloat) : Distinct (.float x)
  | string (s : PyStr) : Distinct (.string s)
  | array (items : List Json) (each : ∀ v ∈ items, Distinct v) : Distinct (.array items)
  | object (members : List (PyStr × Json)) (keys : (members.map Prod.fst).Nodup)
      (each : ∀ m ∈ members, Distinct m.2) : Distinct (.object members)

/-- The values of an object that is being read. -/
def EachDistinct (members : Members) : Prop := ∀ m ∈ members.entries, Distinct m.2

def Frame.Distinct : Frame → Prop
  | .array items => ∀ v ∈ items, Json.Distinct v
  | .member members _ => EachDistinct members

def Mode.Distinct : Mode → Prop
  | .key members | .colon members _ | .string (some members) _ _ => EachDistinct members
  | .literal _ v | .after v => Json.Distinct v
  | _ => True

/-- What the machine has read has distinct keys. -/
structure Sound (s : Scanner) : Prop where
  mode : s.mode.Distinct
  stack : ∀ frame ∈ s.stack, frame.Distinct

variable {float : List Char → PyFloat} {s t : Scanner} {c : CodePoint} {v : Json}
variable {members : Members} {key : PyStr} {stack : List Frame} {text : PyStr}

theorem EachDistinct.object (each : EachDistinct members) : Distinct (.object members.entries) :=
  .object _ members.nodup each

theorem EachDistinct.setItem (each : EachDistinct members) (hv : Distinct v) :
    EachDistinct (members.setItem key v) := by
  rintro ⟨k, w⟩ hm
  rcases OrderedDict.mem_setItem hm with same | old
  · obtain ⟨_, rfl⟩ := Prod.mk.inj same
    exact hv
  · exact each _ old

theorem eachDistinct_empty : EachDistinct OrderedDict.empty := fun _ hm => by cases hm

theorem distinct_integer {digits : List Char} (h : integer digits = .ok v) : Distinct v := by
  unfold integer at h
  simp only at h
  split at h
  · cases h
  · rw [← Except.ok.inj h]
    exact .int _

theorem distinct_numberValue {digits : List Char} {position : NumberPosition}
    (h : numberValue float digits position = .ok v) : Distinct v := by
  have unread : numberValue float digits .point ≠ .ok v := by
    intro h
    rw [numberValue] at h
    split at h
    · cases h
    · cases h
  cases position with
  | minus => cases h
  | zero => exact distinct_integer h
  | whole => exact distinct_integer h
  | point => exact absurd h unread
  | fraction =>
      rw [← Except.ok.inj h]
      exact .float _
  | e fraction =>
      cases fraction with
      | false => exact absurd h unread
      | true => cases h
  | sign fraction =>
      cases fraction with
      | false => exact absurd h unread
      | true => cases h
  | exponent =>
      rw [← Except.ok.inj h]
      exact .float _

/-- A state that the machine gets into, taken apart. -/
theorem Sound.of_ok {mode : Mode} (h : (.ok ⟨mode, stack⟩ : Except LoadError Scanner) = .ok t)
    (hmode : mode.Distinct) (hstack : ∀ frame ∈ stack, frame.Distinct) : Sound t := by
  rw [← Except.ok.inj h]
  exact ⟨hmode, hstack⟩

theorem sound_stepValue (hstack : ∀ frame ∈ stack, frame.Distinct)
    (h : stepValue stack c = .ok t) : Sound t := by
  unfold stepValue at h
  simp only at h
  split at h
  · exact .of_ok h trivial hstack
  · split at h
    · exact .of_ok h trivial hstack
    · exact .of_ok h trivial hstack
    · exact .of_ok h trivial hstack
    · exact .of_ok h Json.Distinct.null hstack
    · exact .of_ok h (Json.Distinct.bool true) hstack
    · exact .of_ok h (Json.Distinct.bool false) hstack
    · exact .of_ok h (Json.Distinct.float _) hstack
    · exact .of_ok h (Json.Distinct.float _) hstack
    · exact .of_ok h trivial hstack
    · exact .of_ok h trivial hstack
    · split at h
      · exact .of_ok h trivial hstack
      · cases h

theorem sound_stepAfter (hv : Distinct v) (hstack : ∀ frame ∈ stack, frame.Distinct)
    (h : stepAfter v stack c = .ok t) : Sound t := by
  unfold stepAfter at h
  split at h
  · exact .of_ok h hv hstack
  · split at h
    · cases h
    · rename_i items stack
      obtain ⟨hitems, hstack⟩ := List.forall_mem_cons.mp hstack
      have all : ∀ w ∈ items ++ [v], Distinct w :=
        List.forall_mem_append.mpr ⟨hitems, List.forall_mem_singleton.mpr hv⟩
      split at h
      · exact .of_ok h trivial (List.forall_mem_cons.mpr ⟨all, hstack⟩)
      · split at h
        · exact .of_ok h (Json.Distinct.array _ all) hstack
        · cases h
    · rename_i members key stack
      obtain ⟨hmembers, hstack⟩ := List.forall_mem_cons.mp hstack
      have each : EachDistinct (members.setItem key v) := hmembers.setItem hv
      split at h
      · exact .of_ok h each hstack
      · split at h
        · exact .of_ok h each.object hstack
        · cases h

theorem sound_stepString {reading : Option Members} {position : StringPosition}
    (hreading : ∀ members ∈ reading, EachDistinct members)
    (hstack : ∀ frame ∈ stack, frame.Distinct)
    (h : stepString stack reading text c position = .ok t) : Sound t := by
  have mode : ∀ (text : PyStr) (position : StringPosition),
      (Mode.string reading text position).Distinct := by
    intro text position
    cases reading with
    | none => trivial
    | some members => exact hreading members rfl
  unfold stepString at h
  split at h
  · split at h
    · split at h
      · exact .of_ok h (Json.Distinct.string text) hstack
      · rename_i members
        exact .of_ok h (hreading members rfl) hstack
    · split at h
      · exact .of_ok h (mode _ _) hstack
      · split at h
        · cases h
        · exact .of_ok h (mode _ _) hstack
  · split at h
    · exact .of_ok h (mode _ _) hstack
    · split at h
      · exact .of_ok h (mode _ _) hstack
      · cases h
  · split at h
    · cases h
    · simp only at h
      split at h
      · exact .of_ok h (mode _ _) hstack
      · exact .of_ok h (mode _ _) hstack

theorem sound_stepNumber {digits : List Char} {position : NumberPosition}
    (hstack : ∀ frame ∈ stack, frame.Distinct)
    (h : stepNumber float stack digits position c = .ok t) : Sound t := by
  unfold stepNumber at h
  split at h
  · exact .of_ok h trivial hstack
  · split at h
    · exact .of_ok h (Json.Distinct.float _) hstack
    · split at h
      · cases h
      · rename_i hv
        exact sound_stepAfter (distinct_numberValue hv) hstack h

/-- One step keeps the keys distinct. -/
theorem sound_step (sound : Sound s) (h : step float s c = .ok t) : Sound t := by
  obtain ⟨mode, stack⟩ := s
  obtain ⟨hmode, hstack⟩ := sound
  cases mode with
  | value => exact sound_stepValue hstack h
  | firstItem =>
      simp only [step] at h
      split at h
      · exact .of_ok h (Json.Distinct.array [] (by simp)) hstack
      · split at h
        · exact .of_ok h trivial hstack
        · refine sound_stepValue (List.forall_mem_cons.mpr ⟨?_, hstack⟩) h
          exact fun v hv => absurd hv List.not_mem_nil
  | firstKey =>
      simp only [step] at h
      split at h
      · exact .of_ok h (Json.Distinct.object [] List.nodup_nil (by simp)) hstack
      · split at h
        · exact .of_ok h trivial hstack
        · split at h
          · exact .of_ok h eachDistinct_empty hstack
          · cases h
  | key members =>
      simp only [step] at h
      split at h
      · exact .of_ok h hmode hstack
      · split at h
        · exact .of_ok h hmode hstack
        · cases h
  | colon members key =>
      simp only [step] at h
      split at h
      · exact .of_ok h hmode hstack
      · split at h
        · exact .of_ok h trivial (List.forall_mem_cons.mpr ⟨hmode, hstack⟩)
        · cases h
  | string reading text position =>
      refine sound_stepString (fun members hm => ?_) hstack h
      rw [Option.mem_def] at hm
      subst hm
      exact hmode
  | number digits position => exact sound_stepNumber hstack h
  | literal rest v =>
      simp only [step] at h
      split at h
      · cases h
      · split at h
        · cases h
        · split at h
          · exact .of_ok h hmode hstack
          · exact .of_ok h hmode hstack
  | after v => exact sound_stepAfter hmode hstack h

theorem sound_scan (sound : Sound s) (h : scan float s text = .ok t) : Sound t := by
  induction text generalizing s with
  | nil =>
      obtain rfl := Except.ok.inj h
      exact sound
  | cons c text ih =>
      rw [scan, List.foldlM_cons] at h
      cases hstep : step float s c with
      | error e =>
          rw [hstep] at h
          cases h
      | ok u =>
          rw [hstep] at h
          exact ih (sound_step sound hstep) h

theorem distinct_finish (sound : Sound s) (h : finish float s = .ok v) : Distinct v := by
  unfold finish at h
  split at h
  · rename_i hmode _
    have mode := sound.mode
    rw [hmode] at mode
    exact Except.ok.inj h ▸ mode
  · split at h
    · rename_i hv _
      exact Except.ok.inj h ▸ distinct_numberValue hv
    · cases h
    · cases h
  · cases h

/-- What `json.loads` returns has distinct keys. -/
theorem distinct_loads (h : loads float text = .ok v) : Distinct v := by
  unfold loads at h
  split at h
  · cases h
  · split at h
    · cases h
    · rename_i hscan
      have start : Sound ⟨.value, []⟩ := ⟨trivial, fun _ hframe => by cases hframe⟩
      exact distinct_finish (sound_scan start hscan) h

end Json

end PaymentsPlatform
