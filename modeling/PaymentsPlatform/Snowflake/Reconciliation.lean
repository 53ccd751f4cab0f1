import PaymentsPlatform.Snowflake.SnapshotRuns

/-!
# What a reconciliation accepts

`parse_copy_result` and `reconcile_snapshot` of `snowflake_etl/src/load_to_snowflake.py`
decide on the number of listed files and on the sum of their rows. A listing of a failed
attempt and a second listing of a file count like any other, so they can stand in for a
part that never loaded. `reconciles_complete_iff` says on which result sets they cannot,
and by how much they mislead on the others.
-/

namespace PaymentsPlatform.Snowflake

/-- What is read of a row of a result set; short rows have no status and no rows. -/
structure Listing where
  name : String
  status : Option Cell
  rows : Int
  deriving DecidableEq, Repr

/-- The first, second and fourth cell; an empty row is passed over. -/
def listing : List Cell → Option Listing
  | [] => none
  | name :: rest => some ⟨name.str, rest[0]?, ((rest[2]?).bind Cell.int?).getD 0⟩

def listings (result : List (List Cell)) : List Listing := result.filterMap listing

/-- The status in capitals, with underscores for blanks: a COPY says `LOAD_FAILED` where
the load history says `Load failed`. -/
def spelledOut (status : Cell) : List Char :=
  status.str.toList.map fun c => if c = ' ' then '_' else upperChar c

namespace Listing

/-- The load skipped the file. -/
def skipped (l : Listing) : Bool := l.status.any isLoadSkipped

/-- The status is neither one of a skip nor one of a failure. -/
def good (l : Listing) : Bool :=
  !l.status.any fun status => status ≠ .null &&
    (isLoadSkipped status || spelledOut status == "LOAD_SKIPPED".toList ||
      spelledOut status == "LOAD_FAILED".toList)

end Listing

/-- The first good listing of each file that was not seen before. -/
def counted (seen : List String) : List Listing → List Listing
  | [] => []
  | l :: ls =>
      if l.good ∧ l.name ∉ seen then l :: counted (l.name :: seen) ls else counted seen ls

/-- The other listings: of failures, of skips, and of files that are listed again. -/
def surplus (seen : List String) : List Listing → List Listing
  | [] => []
  | l :: ls =>
      if l.good ∧ l.name ∉ seen then surplus (l.name :: seen) ls else l :: surplus seen ls

def totalRows (ls : List Listing) : Int := (ls.map Listing.rows).sum

/-- At least the expected parts are distinct files whose status is neither skipped nor
failed, and with each file counted once their rows are at least the expected ones. -/
structure Complete (expectedParts expectedRows : Int) (ls : List Listing) : Prop where
  files : expectedParts ≤ (((ls.filter Listing.good).map Listing.name).dedup.length : Int)
  rows : expectedRows ≤ totalRows (counted [] ls)

/-- None of the refusals applies to the listings. -/
structure Unrefused (expectedParts expectedRows : Int) (snapshotType : String)
    (allowEmpty : Bool) (ls : List Listing) : Prop where
  unskipped : ∀ l ∈ ls, l.skipped = false
  history : ls = [] → expectedParts = 0
  files : expectedParts ≤ ls.length
  rows : expectedRows ≤ totalRows ls
  nonempty : snapshotType = snapshotFull → expectedRows = 0 → allowEmpty = true

/-- What is listed beyond the expectations outweighs the surplus. -/
structure Outweighed (expectedParts expectedRows : Int) (ls : List Listing) : Prop where
  files : ((surplus [] ls).length : Int) ≤ ls.length - expectedParts
  rows : totalRows (surplus [] ls) ≤ totalRows ls - expectedRows

variable {result : List (List Cell)} {ls : List Listing} {seen : List String}
variable {expectedParts expectedRows : Int} {snapshotType : String} {allowEmpty : Bool}

/-- The parser counts every listing. -/
theorem parseCopyResult_eq (result : List (List Cell)) : parseCopyResult result =
    { files := (listings result).map Listing.name
      rowsLoaded := totalRows (listings result)
      skipped := ((listings result).filter Listing.skipped).map Listing.name } := by
  have fold : ∀ o : CopyOutcome, result.foldl readCopyRow o =
      { files := o.files ++ (listings result).map Listing.name
        rowsLoaded := o.rowsLoaded + totalRows (listings result)
        skipped := o.skipped ++ ((listings result).filter Listing.skipped).map Listing.name } := by
    induction result with
    | nil => intro o; simp [listings, totalRows]
    | cons row result ih =>
        intro o
        rw [List.foldl_cons, ih]
        cases row with
        | nil => rfl
        | cons name rest =>
            have skip : Listing.skipped ⟨name.str, rest[0]?, ((rest[2]?).bind Cell.int?).getD 0⟩ =
                (rest[0]?).any isLoadSkipped := rfl
            cases hs : (rest[0]?).any isLoadSkipped <;>
              simp [readCopyRow, listings, listing, totalRows, skip, hs, add_assoc]
  refine (fold _).trans ?_
  simp

/-- Every listing is counted or surplus. -/
theorem counted_append_surplus_perm (seen : List String) (ls : List Listing) :
    (counted seen ls ++ surplus seen ls).Perm ls := by
  induction ls generalizing seen with
  | nil => exact .refl _
  | cons l ls ih =>
      rw [counted, surplus]
      split
      · exact (ih _).cons l
      · exact List.perm_middle.trans ((ih seen).cons l)

/-- The counted listings are of the good files that were not seen, each once. -/
theorem names_counted (seen : List String) (ls : List Listing) :
    ((counted seen ls).map Listing.name).Nodup ∧
      ∀ name, name ∈ (counted seen ls).map Listing.name ↔
        name ∈ (ls.filter Listing.good).map Listing.name ∧ name ∉ seen := by
  induction ls generalizing seen with
  | nil => simp [counted]
  | cons l ls ih =>
      rw [counted]
      split
      · rename_i new
        obtain ⟨nodup, names⟩ := ih (l.name :: seen)
        refine ⟨List.nodup_cons.mpr ⟨fun again => ?_, nodup⟩, fun name => ?_⟩
        · exact ((names l.name).mp again).2 List.mem_cons_self
        · rw [List.map_cons, List.mem_cons, names, List.filter_cons_of_pos new.1, List.map_cons,
            List.mem_cons, List.mem_cons]
          by_cases same : name = l.name
          · simp [same, new.2]
          · simp [same]
      · rename_i old
        obtain ⟨nodup, names⟩ := ih seen
        refine ⟨nodup, fun name => ?_⟩
        rw [names]
        by_cases good : l.good = true
        · have again : l.name ∈ seen := by
            by_contra unseen
            exact old ⟨good, unseen⟩
          rw [List.filter_cons_of_pos good, List.map_cons, List.mem_cons]
          by_cases same : name = l.name
          · simp [same, again]
          · simp [same]
        · rw [List.filter_cons_of_neg good]

theorem totalRows_append (ls ls' : List Listing) :
    totalRows (ls ++ ls') = totalRows ls + totalRows ls' := by
  rw [totalRows, totalRows, totalRows, List.map_append, List.sum_append]

theorem length_counted_add : (counted [] ls).length + (surplus [] ls).length = ls.length := by
  rw [← List.length_append]
  exact (counted_append_surplus_perm [] ls).length_eq

theorem totalRows_counted_add :
    totalRows (counted [] ls) + totalRows (surplus [] ls) = totalRows ls := by
  rw [← totalRows_append]
  exact ((counted_append_surplus_perm [] ls).map Listing.rows).sum_eq

/-- One listing is counted for each good file. -/
theorem length_goodFiles :
    ((ls.filter Listing.good).map Listing.name).dedup.length = (counted [] ls).length := by
  obtain ⟨nodup, names⟩ := names_counted [] ls
  have length : ((counted [] ls).map Listing.name).length = (counted [] ls).length :=
    List.length_map Listing.name
  rw [← length]
  refine ((List.perm_ext_iff_of_nodup (List.nodup_dedup _) nodup).mpr fun name => ?_).length_eq
  rw [List.mem_dedup, names]
  exact (and_iff_left List.not_mem_nil).symm

theorem complete_iff_outweighed :
    Complete expectedParts expectedRows ls ↔ Outweighed expectedParts expectedRows ls := by
  have files : (counted [] ls).length + (surplus [] ls).length = ls.length := length_counted_add
  have rows : totalRows (counted [] ls) + totalRows (surplus [] ls) = totalRows ls :=
    totalRows_counted_add
  constructor
  · rintro ⟨parts, loaded⟩
    rw [length_goodFiles] at parts
    exact ⟨by omega, by omega⟩
  · rintro ⟨parts, loaded⟩
    exact ⟨by rw [length_goodFiles]; omega, by omega⟩

theorem surplus_eq_nil_iff : surplus seen ls = [] ↔
    (∀ l ∈ ls, l.good = true ∧ l.name ∉ seen) ∧ (ls.map Listing.name).Nodup := by
  induction ls generalizing seen with
  | nil => simp [surplus]
  | cons l ls ih =>
      rw [surplus, List.forall_mem_cons, List.map_cons, List.nodup_cons]
      split
      · rename_i new
        rw [ih]
        constructor
        · rintro ⟨rest, nodup⟩
          refine ⟨⟨new, fun l' hl' => ⟨(rest l' hl').1, fun again => ?_⟩⟩, fun again => ?_, nodup⟩
          · exact (rest l' hl').2 (List.mem_cons_of_mem _ again)
          · obtain ⟨l', hl', same⟩ := List.mem_map.mp again
            exact (rest l' hl').2 (same ▸ List.mem_cons_self)
        · rintro ⟨⟨_, rest⟩, once, nodup⟩
          refine ⟨fun l' hl' => ⟨(rest l' hl').1, fun again => ?_⟩, nodup⟩
          rcases List.mem_cons.mp again with same | again
          · exact once (same ▸ List.mem_map_of_mem hl')
          · exact (rest l' hl').2 again
      · rename_i old
        exact iff_of_false (List.cons_ne_nil _ _) fun ⟨⟨new, _⟩, _⟩ => old new

/-- What a result set is accepted for. -/
theorem accepts_iff : reconcileSnapshot expectedParts expectedRows (parseCopyResult result)
    snapshotType allowEmpty = .ok () ↔
      Unrefused expectedParts expectedRows snapshotType allowEmpty (listings result) := by
  have unskipped : ((listings result).filter Listing.skipped).map Listing.name = [] ↔
      ∀ l ∈ listings result, l.skipped = false := by simp
  rw [parseCopyResult_eq, reconcileSnapshot_eq_ok]
  simp only [CopyOutcome.fileCount, List.length_map, unskipped]
  constructor
  · rintro ⟨skipped, history, files, rows, nonempty⟩
    refine ⟨skipped, fun none => ?_, files, rows, fun full zero => ?_⟩
    · by_contra some
      exact history ⟨some, by rw [none]; rfl⟩
    · by_contra refused
      exact nonempty ⟨full, zero, by simpa using refused⟩
  · rintro ⟨skipped, history, files, rows, nonempty⟩
    refine ⟨skipped, ?_, files, rows, ?_⟩
    · rintro ⟨some, none⟩
      exact some (history (List.eq_nil_of_length_eq_zero none))
    · rintro ⟨full, zero, refused⟩
      simp [nonempty full zero] at refused

/-- An accepted load is complete exactly when what is listed beyond the expectations
outweighs the failures and the repetitions. A result set is accepted for complete loads
only exactly when it lists a skipped file, or neither a failure nor a file twice. -/
theorem reconciles_complete_iff (result : List (List Cell)) :
    (∀ expectedParts expectedRows snapshotType allowEmpty,
      (reconcileSnapshot expectedParts expectedRows (parseCopyResult result) snapshotType
        allowEmpty = .ok () → Complete expectedParts expectedRows (listings result)) ↔
      (Unrefused expectedParts expectedRows snapshotType allowEmpty (listings result) →
        Outweighed expectedParts expectedRows (listings result))) ∧
    ((∀ expectedParts expectedRows snapshotType allowEmpty,
      reconcileSnapshot expectedParts expectedRows (parseCopyResult result) snapshotType
        allowEmpty = .ok () → Complete expectedParts expectedRows (listings result)) ↔
      (∃ l ∈ listings result, l.skipped = true) ∨
        ((∀ l ∈ listings result, l.good = true) ∧
          ((listings result).map Listing.name).Nodup)) := by
  refine ⟨fun _ _ _ _ => imp_congr accepts_iff complete_iff_outweighed, ?_, ?_⟩
  · intro complete
    by_contra other
    push Not at other
    obtain ⟨unskipped, other⟩ := other
    have accepted := complete (listings result).length (totalRows (listings result)) snapshotWindow
      true (accepts_iff.mpr ⟨fun l hl => by simpa using unskipped l hl, fun none => by simp [none],
        le_rfl, le_rfl, fun _ _ => rfl⟩)
    have none : surplus [] (listings result) = [] := by
      have few := (complete_iff_outweighed.mp accepted).files
      rw [sub_self] at few
      exact List.eq_nil_of_length_eq_zero (by omega)
    obtain ⟨good, nodup⟩ := surplus_eq_nil_iff.mp none
    exact other (fun l hl => (good l hl).1) nodup
  · rintro (⟨l, hl, skipped⟩ | ⟨good, nodup⟩) expectedParts expectedRows snapshotType allowEmpty
      accepted
    · have unskipped := (accepts_iff.mp accepted).unskipped l hl
      exact absurd skipped (by simp [unskipped])
    · have unrefused := accepts_iff.mp accepted
      have none : surplus [] (listings result) = [] :=
        surplus_eq_nil_iff.mpr ⟨fun l hl => ⟨good l hl, List.not_mem_nil⟩, nodup⟩
      refine complete_iff_outweighed.mpr ⟨?_, ?_⟩
      · rw [none]
        exact Int.sub_nonneg.mpr unrefused.files
      · rw [none]
        exact Int.sub_nonneg.mpr unrefused.rows

/-- The history of a run whose second part failed while the first was loaded twice. -/
def maskedHistory : List (List Cell) :=
  [[.text "part-00000.jsonl", .text "Loaded", .int 50, .int 50],
   [.text "part-00001.jsonl", .text "Load failed", .int 50, .int 0],
   [.text "part-00000.jsonl", .text "Loaded", .int 50, .int 50]]

/-- It is accepted for two parts with 100 rows, though only one part loaded. -/
theorem maskedHistory_accepted :
    reconcileSnapshot 2 100 (parseCopyResult maskedHistory) snapshotFull false = .ok () ∧
      ¬Complete 2 100 (listings maskedHistory) := by
  refine ⟨by decide +kernel, fun complete => ?_⟩
  exact absurd complete.files (by decide +kernel)

end PaymentsPlatform.Snowflake
