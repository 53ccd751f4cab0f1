import PaymentsPlatform.Text.Runs

/-!
# Words and the gaps between them

A substitution of the shape `re.sub("[^w-]+", "-", text).strip("-")` keeps the words of a
text and one dash for each separator between two of them, where a separator is a dash or a
maximal run of other elements. `strip_replaceRuns_text` says so for a text that is spelled
out as words and gaps, so two texts are rewritten to the same one exactly when they are
alike (`alike_iff`).
-/

namespace PaymentsPlatform.Text

variable {α : Type*} [DecidableEq α]

/-- A run of elements of words. -/
def IsWord (word : α → Bool) (w : List α) : Prop := w ≠ [] ∧ ∀ c ∈ w, word c = true

/-- A text without words. -/
def IsGap (word : α → Bool) (gap : List α) : Prop := ∀ c ∈ gap, word c = false

/-- The dashes of a gap and its maximal runs of other elements; the flag tells whether the
gap continues a run. -/
def separatorsFrom (dash : α) : Bool → List α → Nat
  | _, [] => 0
  | inRun, c :: gap =>
      if c = dash then separatorsFrom dash false gap + 1
      else if inRun then separatorsFrom dash true gap
      else separatorsFrom dash true gap + 1

def separators (dash : α) (gap : List α) : Nat := separatorsFrom dash false gap

/-- A text with a word, spelled out: a word, gaps with the words behind them, and gaps at
both ends. -/
structure Spelling (word : α → Bool) where
  lead : List α
  first : List α
  rest : List (List α × List α)
  trail : List α
  lead_gap : IsGap word lead
  first_word : IsWord word first
  rest_gap : ∀ r ∈ rest, r.1 ≠ [] ∧ IsGap word r.1
  rest_word : ∀ r ∈ rest, IsWord word r.2
  trail_gap : IsGap word trail

namespace Spelling

variable {word : α → Bool}

def text (p : Spelling word) : List α :=
  p.lead ++ (p.first ++ (p.rest.flatMap (fun r => r.1 ++ r.2) ++ p.trail))

def words (p : Spelling word) : List (List α) := p.first :: p.rest.map Prod.snd

/-- How many separators there are between each word and the next. -/
def weights (dash : α) (p : Spelling word) : List Nat := p.rest.map fun r => separators dash r.1

end Spelling

/-- Texts with the same words, and as many separators between each two of them. -/
def Alike (word : α → Bool) (dash : α) (s t : List α) : Prop :=
  ∃ p q : Spelling word, p.text = s ∧ q.text = t ∧ p.words = q.words ∧
    p.weights dash = q.weights dash

/-- What is neither of a word nor a dash. -/
def foreign (word : α → Bool) (dash c : α) : Bool := !(word c || c == dash)

/-- Dashes with the words behind them. -/
def dashed (dash : α) (rest : List (List α × List α)) : List α :=
  rest.flatMap fun r => List.replicate (separators dash r.1) dash ++ r.2

variable {word p : α → Bool} {dash : α} {inRun : Bool} {xs ys w w' gap s t : List α}

@[simp] theorem dashed_nil : dashed dash [] = [] := rfl

@[simp] theorem dashed_cons (r : List α × List α) (rest : List (List α × List α)) :
    dashed dash (r :: rest) =
      List.replicate (separators dash r.1) dash ++ (r.2 ++ dashed dash rest) := by
  simp [dashed]

theorem separators_pos (nonempty : gap ≠ []) : 0 < separators dash gap := by
  obtain ⟨c, gap, rfl⟩ := List.exists_cons_of_ne_nil nonempty
  rw [separators, separatorsFrom]
  split
  · exact Nat.succ_pos _
  · exact Nat.succ_pos _

omit [DecidableEq α] in
/-- A text that begins with a word. -/
theorem IsWord.head_append (hw : IsWord word w) (xs : List α) :
    ∀ c, (w ++ xs).head? = some c → word c = true := by
  intro c hc
  obtain ⟨x, w, rfl⟩ := List.exists_cons_of_ne_nil hw.1
  rw [List.cons_append, List.head?_cons] at hc
  exact hw.2 c (Option.some.inj hc ▸ List.mem_cons_self)

section Rewrite

/-- The elements of words stay as they are. -/
theorem replaceRunsFrom_word (hw : ∀ c ∈ w, word c = true) (xs : List α) :
    replaceRunsFrom (foreign word dash) dash false (w ++ xs) =
      w ++ replaceRunsFrom (foreign word dash) dash false xs := by
  induction w with
  | nil => rfl
  | cons c w ih =>
      have hc : foreign word dash c = false := by simp [foreign, hw c List.mem_cons_self]
      rw [List.cons_append, replaceRunsFrom, hc, List.cons_append]
      exact congrArg (c :: ·) (ih fun x hx => hw x (List.mem_cons_of_mem _ hx))

/-- Behind a gap that ends at a word or at the end, the scan is outside of a run. -/
theorem replaceRunsFrom_gap (hgap : IsGap word gap)
    (next : ∀ c, xs.head? = some c → word c = true) :
    replaceRunsFrom (foreign word dash) dash inRun (gap ++ xs) =
      List.replicate (separatorsFrom dash inRun gap) dash ++
        replaceRunsFrom (foreign word dash) dash false xs := by
  induction gap generalizing inRun with
  | nil =>
      cases xs with
      | nil => rfl
      | cons c xs =>
          have hc : foreign word dash c = false := by simp [foreign, next c rfl]
          simp [replaceRunsFrom, separatorsFrom, hc]
  | cons c gap ih =>
      obtain ⟨hc, hgap⟩ := List.forall_mem_cons.mp hgap
      by_cases same : c = dash
      · have kept : foreign word dash dash = false := by simp [foreign]
        simp [replaceRunsFrom, separatorsFrom, kept, same, ih hgap, List.replicate_succ]
      · have dropped : foreign word dash c = true := by simp [foreign, hc, same]
        cases inRun with
        | true => simp [replaceRunsFrom, separatorsFrom, dropped, same, ih hgap]
        | false =>
            simp [replaceRunsFrom, separatorsFrom, dropped, same, ih hgap, List.replicate_succ]

/-- Between words, dashes for the separators. -/
theorem replaceRunsFrom_rest {rest : List (List α × List α)}
    (gaps : ∀ r ∈ rest, r.1 ≠ [] ∧ IsGap word r.1) (words : ∀ r ∈ rest, IsWord word r.2)
    (xs : List α) :
    replaceRunsFrom (foreign word dash) dash false (rest.flatMap (fun r => r.1 ++ r.2) ++ xs) =
      dashed dash rest ++ replaceRunsFrom (foreign word dash) dash false xs := by
  induction rest with
  | nil => rfl
  | cons r rest ih =>
      obtain ⟨⟨_, hgap⟩, gaps⟩ := List.forall_mem_cons.mp gaps
      obtain ⟨hword, words⟩ := List.forall_mem_cons.mp words
      simp only [List.flatMap_cons, List.append_assoc, dashed]
      rw [replaceRunsFrom_gap hgap (hword.head_append _), replaceRunsFrom_word hword.2,
        ih gaps words]
      rfl

/-- The text of a spelling, rewritten. -/
theorem replaceRuns_text (p : Spelling word) :
    replaceRuns (foreign word dash) dash p.text =
      List.replicate (separators dash p.lead) dash ++
        (p.first ++ dashed dash p.rest ++ List.replicate (separators dash p.trail) dash) := by
  have trail : replaceRunsFrom (foreign word dash) dash false (p.trail ++ []) = _ :=
    replaceRunsFrom_gap p.trail_gap (by simp)
  rw [List.append_nil] at trail
  rw [replaceRuns, Spelling.text, replaceRunsFrom_gap p.lead_gap (p.first_word.head_append _),
    replaceRunsFrom_word p.first_word.2, replaceRunsFrom_rest p.rest_gap p.rest_word, trail]
  simp [replaceRunsFrom, separators]

/-- A text of words and dashes ends with a word. -/
theorem getLast?_dashed {rest : List (List α × List α)} (hw : IsWord word w)
    (words : ∀ r ∈ rest, IsWord word r.2) :
    ∀ c, (w ++ dashed dash rest).getLast? = some c → word c = true := by
  intro c hc
  induction rest generalizing w with
  | nil =>
      rw [dashed_nil, List.append_nil] at hc
      exact hw.2 c (List.mem_of_getLast? hc)
  | cons r rest ih =>
      obtain ⟨hword, words⟩ := List.forall_mem_cons.mp words
      have nonempty : r.2 ++ dashed dash rest ≠ [] := fun h =>
        hword.1 (List.append_eq_nil_iff.mp h).1
      refine ih hword words ?_
      rwa [dashed_cons, ← List.append_assoc, List.getLast?_append_of_ne_nil _ nonempty] at hc

private theorem dropWhile_replicate_append {k : Nat} (next : ∀ c, xs.head? = some c → c ≠ dash) :
    (List.replicate k dash ++ xs).dropWhile (· == dash) = xs := by
  rw [List.dropWhile_append_of_pos (by simp)]
  cases xs with
  | nil => rfl
  | cons c xs => exact List.dropWhile_cons_of_neg (by simpa using next c rfl)

private theorem strip_dashes {k m : Nat} (nonempty : xs ≠ [])
    (first : ∀ c, xs.head? = some c → c ≠ dash) (last : ∀ c, xs.getLast? = some c → c ≠ dash) :
    strip (· == dash) (List.replicate k dash ++ (xs ++ List.replicate m dash)) = xs := by
  obtain ⟨c, xs, rfl⟩ := List.exists_cons_of_ne_nil nonempty
  rw [strip, dropWhile_replicate_append (by simpa using first c rfl), List.rdropWhile,
    List.reverse_append, List.reverse_replicate,
    dropWhile_replicate_append (by rwa [List.head?_reverse]), List.reverse_reverse]

/-- The words stay, and a dash for each separator between two of them. -/
theorem strip_replaceRuns_text (separate : word dash = false) (p : Spelling word) :
    strip (· == dash) (replaceRuns (foreign word dash) dash p.text) =
      p.first ++ dashed dash p.rest := by
  have other : ∀ c, word c = true → c ≠ dash := by
    rintro c hc rfl
    rw [separate] at hc
    cases hc
  have nonempty : p.first ++ dashed dash p.rest ≠ [] := fun h =>
    p.first_word.1 (List.append_eq_nil_iff.mp h).1
  rw [replaceRuns_text]
  exact strip_dashes nonempty (fun c hc => other c (p.first_word.head_append _ c hc))
    fun c hc => other c (getLast?_dashed p.first_word p.rest_word c hc)

/-- Without a word nothing stays. -/
theorem strip_replaceRuns_gap (hgap : IsGap word gap) :
    strip (· == dash) (replaceRuns (foreign word dash) dash gap) = [] := by
  have dashes : replaceRunsFrom (foreign word dash) dash false (gap ++ []) = _ :=
    replaceRunsFrom_gap hgap (by simp)
  rw [List.append_nil] at dashes
  rw [replaceRuns, dashes]
  simp [strip, replaceRunsFrom]

end Rewrite

section Read

omit [DecidableEq α] in
/-- A run of a class is split off in front of what does not go on with it. -/
theorem append_inj_of_span (hw : ∀ c ∈ w, p c = true) (hw' : ∀ c ∈ w', p c = true)
    (hx : ∀ c, xs.head? = some c → p c = false) (hy : ∀ c, ys.head? = some c → p c = false)
    (h : w ++ xs = w' ++ ys) : w = w' ∧ xs = ys := by
  have span : ∀ w xs : List α, (∀ c ∈ w, p c = true) → (∀ c, xs.head? = some c → p c = false) →
      (w ++ xs).takeWhile p = w := by
    intro w xs hw hx
    rw [List.takeWhile_append_of_pos hw]
    cases xs with
    | nil => simp
    | cons c xs => rw [List.takeWhile_cons_of_neg (by simp [hx c rfl]), List.append_nil]
  have same : w = w' := by rw [← span w xs hw hx, h, span w' ys hw' hy]
  rw [same] at h
  exact ⟨same, List.append_cancel_left h⟩

private theorem head?_dashed {rest : List (List α × List α)}
    (gaps : ∀ r ∈ rest, r.1 ≠ [] ∧ IsGap word r.1) :
    ∀ c, (dashed dash rest).head? = some c → c = dash := by
  intro c hc
  cases rest with
  | nil => cases hc
  | cons r rest =>
      obtain ⟨n, hn⟩ := Nat.exists_eq_add_one.mpr
        (separators_pos (gaps r List.mem_cons_self).1)
      rw [dashed_cons, hn, List.replicate_succ] at hc
      exact (Option.some.inj hc).symm

private theorem head?_dashed_outside {rest : List (List α × List α)} (separate : word dash = false)
    (gaps : ∀ r ∈ rest, r.1 ≠ [] ∧ IsGap word r.1) :
    ∀ c, (dashed dash rest).head? = some c → word c = false :=
  fun c hc => head?_dashed gaps c hc ▸ separate

private theorem dashed_cons_ne_nil {r : List α × List α} (rest : List (List α × List α))
    (hr : IsWord word r.2) : dashed dash (r :: rest) ≠ [] := by
  intro h
  rw [dashed_cons] at h
  exact hr.1 (List.append_eq_nil_iff.mp (List.append_eq_nil_iff.mp h).2).1

private theorem head?_word_append (separate : word dash = false) (hw : IsWord word w)
    (xs : List α) :
    ∀ c, (w ++ xs).head? = some c → (c == dash) = false := by
  intro c hc
  refine beq_eq_false_iff_ne.mpr fun same => ?_
  have hword := hw.head_append _ c hc
  rw [same, separate] at hword
  cases hword

/-- Words and dashes are read back. -/
theorem dashed_inj {rest rest' : List (List α × List α)} (separate : word dash = false)
    (hw : IsWord word w) (hw' : IsWord word w')
    (gaps : ∀ r ∈ rest, r.1 ≠ [] ∧ IsGap word r.1) (words : ∀ r ∈ rest, IsWord word r.2)
    (gaps' : ∀ r ∈ rest', r.1 ≠ [] ∧ IsGap word r.1) (words' : ∀ r ∈ rest', IsWord word r.2)
    (h : w ++ dashed dash rest = w' ++ dashed dash rest') :
    w :: rest.map Prod.snd = w' :: rest'.map Prod.snd ∧
      rest.map (fun r => separators dash r.1) = rest'.map fun r => separators dash r.1 := by
  induction rest generalizing w w' rest' with
  | nil =>
      obtain ⟨rfl, tails⟩ :=
        append_inj_of_span hw.2 hw'.2 (by simp) (head?_dashed_outside separate gaps') h
      cases rest' with
      | nil => exact ⟨rfl, rfl⟩
      | cons r' rest' =>
          exact absurd tails.symm (dashed_cons_ne_nil _ (words' _ List.mem_cons_self))
  | cons r rest ih =>
      obtain ⟨rfl, tails⟩ := append_inj_of_span hw.2 hw'.2 (head?_dashed_outside separate gaps)
        (head?_dashed_outside separate gaps') h
      cases rest' with
      | nil => exact absurd tails (dashed_cons_ne_nil _ (words _ List.mem_cons_self))
      | cons r' rest' =>
          obtain ⟨hword, words⟩ := List.forall_mem_cons.mp words
          obtain ⟨hword', words'⟩ := List.forall_mem_cons.mp words'
          rw [dashed_cons, dashed_cons] at tails
          obtain ⟨dashes, tails⟩ := append_inj_of_span (by simp) (by simp)
            (head?_word_append separate hword _) (head?_word_append separate hword' _) tails
          have weight : separators dash r.1 = separators dash r'.1 := by
            simpa using congrArg List.length dashes
          obtain ⟨same, weights⟩ := ih hword hword' (List.forall_mem_cons.mp gaps).2 words
            (List.forall_mem_cons.mp gaps').2 words' tails
          exact ⟨congrArg (w :: ·) same, by simp only [List.map_cons, weight, weights]⟩

end Read

section Spell

omit [DecidableEq α] in
theorem exists_spelling_gap (p : Spelling word) (hc : word c = false) :
    ∃ q : Spelling word, q.text = c :: p.text :=
  ⟨{ p with
      lead := c :: p.lead
      lead_gap := List.forall_mem_cons.mpr ⟨hc, p.lead_gap⟩ }, rfl⟩

omit [DecidableEq α] in
/-- An element of a word goes on with the first word or is a word of its own. -/
theorem exists_spelling_word (p : Spelling word) (hc : word c = true) :
    ∃ q : Spelling word, q.text = c :: p.text := by
  by_cases hlead : p.lead = []
  · refine ⟨{ p with
      first := c :: p.first
      first_word := ⟨by simp, List.forall_mem_cons.mpr ⟨hc, p.first_word.2⟩⟩ }, ?_⟩
    simp [Spelling.text, hlead]
  · refine ⟨{
      lead := []
      first := [c]
      rest := (p.lead, p.first) :: p.rest
      trail := p.trail
      lead_gap := by simp [IsGap]
      first_word := ⟨by simp, by simpa using hc⟩
      rest_gap := List.forall_mem_cons.mpr ⟨⟨hlead, p.lead_gap⟩, p.rest_gap⟩
      rest_word := List.forall_mem_cons.mpr ⟨p.first_word, p.rest_word⟩
      trail_gap := p.trail_gap }, ?_⟩
    simp [Spelling.text]

omit [DecidableEq α] in
theorem exists_spelling_last (hc : word c = true) (gap : IsGap word s) :
    ∃ q : Spelling word, q.text = c :: s :=
  ⟨{ lead := []
     first := [c]
     rest := []
     trail := s
     lead_gap := by simp [IsGap]
     first_word := ⟨by simp, by simpa using hc⟩
     rest_gap := by simp
     rest_word := by simp
     trail_gap := gap }, rfl⟩

omit [DecidableEq α] in
/-- A text with an element of a word can be spelled out. -/
theorem exists_spelling (h : ∃ c ∈ s, word c = true) : ∃ p : Spelling word, p.text = s := by
  induction s with
  | nil => simp at h
  | cons c s ih =>
      by_cases more : ∃ c ∈ s, word c = true
      · obtain ⟨p, rfl⟩ := ih more
        cases hc : word c with
        | false => exact exists_spelling_gap p hc
        | true => exact exists_spelling_word p hc
      · have gap : IsGap word s := fun x hx => by
          by_contra hne
          exact more ⟨x, hx, by simpa using hne⟩
        obtain ⟨x, hx, hword⟩ := h
        rcases List.mem_cons.mp hx with rfl | hx
        · exact exists_spelling_last hword gap
        · exact absurd ⟨x, hx, hword⟩ more

end Spell

/-- The weights of the gaps and the words determine the dashes. -/
private theorem dashed_eq_zip (rest : List (List α × List α)) : dashed dash rest =
    (List.zipWith (fun n w => List.replicate n dash ++ w)
      (rest.map fun r => separators dash r.1) (rest.map Prod.snd)).flatten := by
  induction rest with
  | nil => rfl
  | cons r rest ih => simp [ih]

/-- Two texts with words are rewritten to one text exactly when they are alike. -/
theorem alike_iff (separate : word dash = false) (hs : ∃ c ∈ s, word c = true)
    (ht : ∃ c ∈ t, word c = true) :
    strip (· == dash) (replaceRuns (foreign word dash) dash s) =
        strip (· == dash) (replaceRuns (foreign word dash) dash t) ↔ Alike word dash s t := by
  constructor
  · intro same
    obtain ⟨p, rfl⟩ := exists_spelling hs
    obtain ⟨q, rfl⟩ := exists_spelling ht
    rw [strip_replaceRuns_text separate, strip_replaceRuns_text separate] at same
    obtain ⟨words, weights⟩ := dashed_inj separate p.first_word q.first_word p.rest_gap
      p.rest_word q.rest_gap q.rest_word same
    exact ⟨p, q, rfl, rfl, words, weights⟩
  · rintro ⟨p, q, rfl, rfl, words, weights⟩
    obtain ⟨first, rest⟩ := List.cons.inj words
    rw [strip_replaceRuns_text separate, strip_replaceRuns_text separate, first, dashed_eq_zip,
      dashed_eq_zip, rest]
    exact congrArg (fun ns => q.first ++ (List.zipWith _ ns _).flatten) weights

end PaymentsPlatform.Text
