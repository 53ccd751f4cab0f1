import PaymentsPlatform.Text.Findall

/-!
# References between the resources of a bundle

`check_references` of `scripts/validate_databricks_bundle.py`. It takes the strings of a
document from `walk`, which yields those that are values of mapping entries and passes over
those that are elements of lists, and it takes the resources of a document for a mapping.
`walk` is recursive, so that it also raises on a document that is nested beyond the frames
of the interpreter. Where none of this does harm, the errors are those of all references to
undeclared resources (`checkReferences_complete_iff`).
-/

namespace PaymentsPlatform.Bundle

/-- A key of a mapping: a string, or another scalar. -/
inductive YamlKey where
  | str (s : String)
  | other (repr : String)
  deriving DecidableEq, Repr

/-- What `yaml.safe_load` makes of a document; of a scalar that is no string only the truth
value is told. -/
inductive Yaml where
  | str (s : String)
  | scalar (truthy : Bool)
  | seq (items : List Yaml)
  | map (entries : List (YamlKey × Yaml))

/-- The entries of a document. -/
abbrev Document := List (YamlKey × Yaml)

/-- A resource by its kind and its key. -/
abbrev Reference := String × String

section Pattern

/-- The start of `_REFERENCE`. -/
def marker : List Char := "$\x7bresources.".toList

/-- A character of a kind. -/
def isKindChar (c : Char) : Bool := c.isLower || c == '_'

/-- A character of a key. -/
def isNameChar (c : Char) : Bool := c.isAlphanum || c == '_'

/-- A character of what is behind the key. -/
def isPathChar (c : Char) : Bool := isNameChar c || c == '.'

/-- `p+`, as many characters as there are. -/
def takeRun (p : Char → Bool) (text : List Char) : Option (List Char × List Char) :=
  let run := text.takeWhile p
  if run = [] then none else some (run, text.dropWhile p)

/-- A single character. -/
def takeChar (c : Char) : List Char → Option (List Char)
  | [] => none
  | x :: rest => if x = c then some rest else none

/-- The match of `_REFERENCE` at the start of a text, with its length. The character behind
each of its runs is not in the class of the run, so that no shorter run matches. -/
def referenceAt (text : List Char) : Option (Reference × Nat) := do
  if marker.isPrefixOf text then
    let (kind, rest) ← takeRun isKindChar (text.drop marker.length)
    let rest ← takeChar '.' rest
    let (name, rest) ← takeRun isNameChar rest
    let rest ← takeChar '.' rest
    let (_, rest) ← takeRun isPathChar rest
    let rest ← takeChar '\x7d' rest
    return ((String.ofList kind, String.ofList name), text.length - rest.length)
  else none

/-- The references in a string, from left to right. -/
def findReferences (value : String) : List Reference := Text.findall referenceAt value.toList

/-- A text that starts with a reference: its parts, and what is behind it. -/
structure Written (text kind name path rest : List Char) : Prop where
  text : text = marker ++ (kind ++ '.' :: (name ++ '.' :: (path ++ '\x7d' :: rest)))
  kind : kind ≠ [] ∧ ∀ c ∈ kind, isKindChar c = true
  name : name ≠ [] ∧ ∀ c ∈ name, isNameChar c = true
  path : path ≠ [] ∧ ∀ c ∈ path, isPathChar c = true

variable {p : Char → Bool} {text run rest kind name path : List Char} {c : Char}
variable {r : Reference} {n : Nat}

theorem takeRun_eq_some (h : takeRun p text = some (run, rest)) :
    text = run ++ rest ∧ run ≠ [] ∧ ∀ c ∈ run, p c = true := by
  obtain ⟨nonempty, same⟩ := Option.ite_none_left_eq_some.mp h
  obtain ⟨rfl, rfl⟩ := Prod.mk.inj (Option.some.inj same)
  exact ⟨List.takeWhile_append_dropWhile.symm, nonempty, fun c hc => List.mem_takeWhile_imp hc⟩

/-- A run ends in front of a character that is not in its class. -/
theorem takeRun_append (nonempty : run ≠ []) (hrun : ∀ c ∈ run, p c = true) (hc : p c = false) :
    takeRun p (run ++ c :: rest) = some (run, c :: rest) := by
  have taken : (run ++ c :: rest).takeWhile p = run := by
    rw [List.takeWhile_append_of_pos hrun, List.takeWhile_cons_of_neg (by simp [hc]),
      List.append_nil]
  have dropped : (run ++ c :: rest).dropWhile p = c :: rest := by
    rw [List.dropWhile_append_of_pos hrun, List.dropWhile_cons_of_neg (by simp [hc])]
  simp only [takeRun, taken, dropped, if_neg nonempty]

theorem takeChar_eq_some : takeChar c text = some rest ↔ text = c :: rest := by
  cases text with
  | nil => simp [takeChar]
  | cons x text =>
      rw [takeChar, Option.ite_none_right_eq_some, Option.some.injEq, List.cons.injEq]

/-- A reference is matched where it is written. -/
theorem referenceAt_eq_some : referenceAt text = some (r, n) ↔
    ∃ kind name path rest, Written text kind name path rest ∧
      r = (String.ofList kind, String.ofList name) ∧ n = text.length - rest.length := by
  unfold referenceAt
  constructor
  · intro h
    obtain ⟨hmarker, h⟩ := Option.ite_none_right_eq_some.mp h
    obtain ⟨behind, rfl⟩ := List.isPrefixOf_iff_prefix.mp hmarker
    rw [List.drop_left] at h
    simp only [Option.bind_eq_bind, Option.bind_eq_some_iff] at h
    obtain ⟨⟨kind, s₁⟩, hkind, s₂, hdot, ⟨name, s₃⟩, hname, s₄, hdot', ⟨path, s₅⟩, hpath, s₆,
      hclose, same⟩ := h
    obtain ⟨rfl, kindNonempty, kindChars⟩ := takeRun_eq_some hkind
    obtain rfl := takeChar_eq_some.mp hdot
    obtain ⟨rfl, nameNonempty, nameChars⟩ := takeRun_eq_some hname
    obtain rfl := takeChar_eq_some.mp hdot'
    obtain ⟨rfl, pathNonempty, pathChars⟩ := takeRun_eq_some hpath
    obtain rfl := takeChar_eq_some.mp hclose
    obtain ⟨rfl, rfl⟩ := Prod.mk.inj (Option.some.inj same)
    exact ⟨kind, name, path, s₆, ⟨rfl, ⟨kindNonempty, kindChars⟩, ⟨nameNonempty, nameChars⟩,
      ⟨pathNonempty, pathChars⟩⟩, rfl, rfl⟩
  · rintro ⟨kind, name, path, rest, ⟨rfl, hkind, hname, hpath⟩, rfl, rfl⟩
    have prefixed : marker.isPrefixOf
        (marker ++ (kind ++ '.' :: (name ++ '.' :: (path ++ '\x7d' :: rest)))) = true :=
      List.isPrefixOf_iff_prefix.mpr (List.prefix_append _ _)
    rw [if_pos prefixed, List.drop_left, takeRun_append hkind.1 hkind.2 (by decide)]
    simp only [Option.bind_eq_bind, Option.bind_some, takeChar, if_true,
      takeRun_append hname.1 hname.2 (show isNameChar '.' = false by decide),
      takeRun_append hpath.1 hpath.2 (show isPathChar '\x7d' = false by decide)]
    rfl

theorem Written.head? (h : Written text kind name path rest) : text.head? = some '$' := by
  rw [h.text]
  rfl

/-- Behind its first character a reference has no other `$`. -/
theorem Written.exists_body (h : Written text kind name path rest) :
    ∃ body, text = '$' :: (body ++ rest) ∧ '$' ∉ body := by
  have absent : ∀ {p : Char → Bool} {run : List Char}, (∀ c ∈ run, p c = true) →
      p '$' = false → '$' ∉ run := by
    intro p run hrun hp hmem
    rw [hrun _ hmem] at hp
    cases hp
  refine ⟨"\x7bresources.".toList ++ (kind ++ '.' :: (name ++ '.' :: (path ++ ['\x7d']))), ?_, ?_⟩
  · have start : marker = '$' :: "\x7bresources.".toList := by decide
    rw [h.text, start]
    simp only [List.cons_append, List.append_assoc, List.nil_append]
  · have start : '$' ∉ "\x7bresources.".toList := by decide
    simp only [List.mem_append, List.mem_cons, start, absent h.kind.2 (by decide),
      absent h.name.2 (by decide), absent h.path.2 (by decide)]
    decide

/-- Inside a reference no other one starts. -/
theorem apart_referenceAt : Text.Apart referenceAt where
  nonempty := rfl
  apart := by
    intro text r taken found k positive inside
    obtain ⟨kind, name, path, rest, written, -, htaken⟩ := referenceAt_eq_some.mp found
    obtain ⟨body, rfl, absent⟩ := written.exists_body
    obtain ⟨k, rfl⟩ := Nat.exists_eq_succ_of_ne_zero (Nat.pos_iff_ne_zero.mp positive)
    rw [List.length_cons, List.length_append] at htaken
    have short : k < body.length := by omega
    by_contra other
    obtain ⟨⟨r', n⟩, hother⟩ := Option.ne_none_iff_exists'.mp other
    obtain ⟨_, _, _, _, written', -⟩ := referenceAt_eq_some.mp hother
    have head := written'.head?
    rw [List.drop_succ_cons, List.head?_drop, List.getElem?_append_left short] at head
    exact absent (List.mem_of_getElem? head)

/-- `findall` finds the references at all places. -/
theorem findReferences_eq (value : String) :
    findReferences value = Text.allMatches referenceAt value.toList :=
  Text.findall_eq apart_referenceAt value.toList

end Pattern

/-- What stops the check: `.items()` of a value that is no mapping, or the recursion of
`walk` on a document that is nested too deeply. -/
inductive BundleError where
  | noItems
  | recursion
  deriving DecidableEq, Repr

mutual

/-- The strings that `walk` yields when no more frames are left than these. Every node it is
called on takes a frame, a scalar too. -/
def walk : Yaml → Nat → Except BundleError (List (YamlKey × String))
  | _, 0 => .error .recursion
  | .map entries, frames + 1 => walkEntries entries frames
  | .seq items, frames + 1 => walkItems items frames
  | .str _, _ + 1 => .ok []
  | .scalar _, _ + 1 => .ok []

def walkEntries : List (YamlKey × Yaml) → Nat → Except BundleError (List (YamlKey × String))
  | [], _ => .ok []
  | (key, .str value) :: entries, frames => do
      let rest ← walkEntries entries frames
      return (key, value) :: rest
  | (_, node) :: entries, frames => do
      let first ← walk node frames
      let rest ← walkEntries entries frames
      return first ++ rest

def walkItems : List Yaml → Nat → Except BundleError (List (YamlKey × String))
  | [], _ => .ok []
  | item :: items, frames => do
      let first ← walk item frames
      let rest ← walkItems items frames
      return first ++ rest

end

section Frames

mutual

/-- What `walk` yields when it has frames enough. -/
def yielded : Yaml → List (YamlKey × String)
  | .map entries => yieldedByEntries entries
  | .seq items => yieldedByItems items
  | .str _ => []
  | .scalar _ => []

def yieldedByEntries : List (YamlKey × Yaml) → List (YamlKey × String)
  | [] => []
  | (key, .str value) :: entries => (key, value) :: yieldedByEntries entries
  | (_, node) :: entries => yielded node ++ yieldedByEntries entries

def yieldedByItems : List Yaml → List (YamlKey × String)
  | [] => []
  | item :: items => yielded item ++ yieldedByItems items

end

mutual

/-- The frames that `walk` takes on a node: its nesting, without the strings of mappings. -/
def frames : Yaml → Nat
  | .map entries => framesOfEntries entries + 1
  | .seq items => framesOfItems items + 1
  | .str _ => 1
  | .scalar _ => 1

def framesOfEntries : List (YamlKey × Yaml) → Nat
  | [] => 0
  | (_, .str _) :: entries => framesOfEntries entries
  | (_, node) :: entries => max (frames node) (framesOfEntries entries)

def framesOfItems : List Yaml → Nat
  | [] => 0
  | item :: items => max (frames item) (framesOfItems items)

end

/-- A result that is there within a number of frames. -/
def within {α : Type} (needed given : Nat) (a : α) : Except BundleError α :=
  if needed ≤ given then .ok a else .error .recursion

theorem within_succ {α : Type} (needed given : Nat) (a : α) :
    within (needed + 1) (given + 1) a = within needed given a := by
  simp only [within, Nat.add_le_add_iff_right]

/-- Two results, one after the other, take the frames of the deeper one. -/
theorem within_append {α : Type} (needed needed' given : Nat) (xs ys : List α) :
    (within needed given xs >>= fun first => within needed' given ys >>= fun rest =>
      .ok (first ++ rest)) = within (max needed needed') given (xs ++ ys) := by
  by_cases hn : needed ≤ given
  · by_cases hn' : needed' ≤ given
    · simp only [within, if_pos hn, if_pos hn', if_pos (max_le hn hn')]
      rfl
    · have deep : ¬max needed needed' ≤ given := fun h => hn' ((le_max_right _ _).trans h)
      simp only [within, if_pos hn, if_neg hn', if_neg deep]
      rfl
  · have deep : ¬max needed needed' ≤ given := fun h => hn ((le_max_left _ _).trans h)
    simp only [within, if_neg hn, if_neg deep]
    rfl

mutual

/-- Within its frames `walk` yields what it does without a limit, and otherwise it raises. -/
theorem walk_eq : ∀ (node : Yaml) (given : Nat),
    walk node given = within (frames node) given (yielded node)
  | .map entries, 0 => rfl
  | .seq items, 0 => rfl
  | .str _, 0 => rfl
  | .scalar _, 0 => rfl
  | .map entries, given + 1 => by
      rw [walk, walkEntries_eq entries given, frames, yielded, within_succ]
  | .seq items, given + 1 => by
      rw [walk, walkItems_eq items given, frames, yielded, within_succ]
  | .str _, given + 1 => by rw [walk, frames, yielded, within, if_pos (Nat.le_add_left 1 given)]
  | .scalar _, given + 1 => by rw [walk, frames, yielded, within, if_pos (Nat.le_add_left 1 given)]

theorem walkEntries_eq : ∀ (entries : List (YamlKey × Yaml)) (given : Nat),
    walkEntries entries given = within (framesOfEntries entries) given (yieldedByEntries entries)
  | [], given => rfl
  | (key, .str value) :: entries, given => by
      rw [walkEntries, walkEntries_eq entries given, framesOfEntries, yieldedByEntries]
      unfold within
      split <;> rfl
  | (_, .scalar truthy) :: entries, given => by
      rw [walkEntries, walk_eq (.scalar truthy) given, walkEntries_eq entries given]
      · exact within_append _ _ _ _ _
      · rintro _ ⟨⟩
  | (_, .seq items) :: entries, given => by
      rw [walkEntries, walk_eq (.seq items) given, walkEntries_eq entries given]
      · exact within_append _ _ _ _ _
      · rintro _ ⟨⟩
  | (_, .map inner) :: entries, given => by
      rw [walkEntries, walk_eq (.map inner) given, walkEntries_eq entries given]
      · exact within_append _ _ _ _ _
      · rintro _ ⟨⟩

theorem walkItems_eq : ∀ (items : List Yaml) (given : Nat),
    walkItems items given = within (framesOfItems items) given (yieldedByItems items)
  | [], given => rfl
  | item :: items, given => by
      rw [walkItems, walk_eq item given, walkItems_eq items given]
      exact within_append _ _ _ _ _

end

end Frames

section Check

def lookup (document : Document) (key : String) : Option Yaml :=
  (document.find? fun e => e.1 = .str key).map Prod.snd

/-- Whether `or` takes a node, and not what is behind it. -/
def Yaml.truthy : Yaml → Bool
  | .str s => s ≠ ""
  | .scalar truthy => truthy
  | .seq items => !items.isEmpty
  | .map entries => !entries.isEmpty

/-- The resources of a document by their kinds, none when they are falsy. -/
def resourceKinds (document : Document) : Except BundleError (List (YamlKey × Yaml)) :=
  match (lookup document "resources").filter Yaml.truthy with
  | none => .ok []
  | some (.map entries) => .ok entries
  | some _ => .error .noItems

/-- The pairs that the resources of one kind declare. -/
def declaredOfKind (kind : YamlKey) : Yaml → List (YamlKey × YamlKey)
  | .map entries => entries.map fun e => (kind, e.1)
  | _ => []

/-- The first loop of `check_references`. -/
def declaredBy : List (String × Document) → Except BundleError (List (YamlKey × YamlKey))
  | [] => .ok []
  | (_, document) :: documents =>
      match resourceKinds document with
      | .error e => .error e
      | .ok kinds =>
          match declaredBy documents with
          | .error e => .error e
          | .ok others => .ok (kinds.flatMap (fun e => declaredOfKind e.1 e.2) ++ others)

def errorText (file : String) (r : Reference) : String :=
  file ++ ": reference to undeclared resource " ++ r.1 ++ "." ++ r.2

/-- The errors of a string. -/
def errorsOf (declared : List (YamlKey × YamlKey)) (file value : String) : List String :=
  ((findReferences value).filter fun r => (.str r.1, .str r.2) ∉ declared).map (errorText file)

/-- The errors of the strings of one document. -/
def errorsIn (limit : Nat) (declared : List (YamlKey × YamlKey)) (d : String × Document) :
    Except BundleError (List String) := do
  let found ← walk (.map d.2) limit
  return found.flatMap fun e => errorsOf declared d.1 e.2

/-- The loop of `check_references` over the documents. -/
def errorsInAll (limit : Nat) (declared : List (YamlKey × YamlKey)) :
    List (String × Document) → Except BundleError (List String)
  | [] => .ok []
  | d :: documents => do
      let first ← errorsIn limit declared d
      let rest ← errorsInAll limit declared documents
      return first ++ rest

/-- The check of documents with the names of their files, where the interpreter has so many
frames left for `walk`. -/
def checkReferences (limit : Nat) (documents : List (String × Document)) :
    Except BundleError (List String) :=
  match declaredBy documents with
  | .error e => .error e
  | .ok declared => errorsInAll limit declared documents

end Check

section Strings

mutual

/-- The strings in a node: itself, or those in its values and its elements. -/
def strings : Yaml → List String
  | .str value => [value]
  | .scalar _ => []
  | .seq items => stringsOfItems items
  | .map entries => stringsOfEntries entries

def stringsOfItems : List Yaml → List String
  | [] => []
  | item :: items => strings item ++ stringsOfItems items

def stringsOfEntries : List (YamlKey × Yaml) → List String
  | [] => []
  | (_, node) :: entries => strings node ++ stringsOfEntries entries

end

mutual

/-- The strings that are elements of lists. -/
def elementStrings : Yaml → List String
  | .str _ => []
  | .scalar _ => []
  | .seq items => elementsOfItems items
  | .map entries => elementsOfEntries entries

def elementsOfItems : List Yaml → List String
  | [] => []
  | .str value :: items => value :: elementsOfItems items
  | item :: items => elementStrings item ++ elementsOfItems items

def elementsOfEntries : List (YamlKey × Yaml) → List String
  | [] => []
  | (_, node) :: entries => elementStrings node ++ elementsOfEntries entries

end

private theorem perm_merge {xs ys es es' : List String} {ws ws' : List (YamlKey × String)}
    (h : xs.Perm (ws.map Prod.snd ++ es)) (h' : ys.Perm (ws'.map Prod.snd ++ es')) :
    (xs ++ ys).Perm ((ws ++ ws').map Prod.snd ++ (es ++ es')) := by
  refine List.perm_iff_count.mpr fun s => ?_
  have first := h.count_eq s
  have second := h'.count_eq s
  simp only [List.map_append, List.count_append] at *
  omega

mutual

/-- The strings of a list are those that `walk` yields, and the elements of lists; -/
theorem stringsOfItems_perm : ∀ items : List Yaml,
    (stringsOfItems items).Perm ((yieldedByItems items).map Prod.snd ++ elementsOfItems items)
  | [] => List.Perm.refl _
  | .str value :: items =>
      ((stringsOfItems_perm items).cons value).trans List.perm_middle.symm
  | .scalar _ :: items => stringsOfItems_perm items
  | .seq inner :: items => perm_merge (stringsOfItems_perm inner) (stringsOfItems_perm items)
  | .map inner :: items => perm_merge (stringsOfEntries_perm inner) (stringsOfItems_perm items)

/-- and so are those of a mapping. -/
theorem stringsOfEntries_perm : ∀ entries : List (YamlKey × Yaml),
    (stringsOfEntries entries).Perm
      ((yieldedByEntries entries).map Prod.snd ++ elementsOfEntries entries)
  | [] => List.Perm.refl _
  | (_, .str value) :: entries => (stringsOfEntries_perm entries).cons value
  | (_, .scalar _) :: entries => stringsOfEntries_perm entries
  | (_, .seq inner) :: entries =>
      perm_merge (stringsOfItems_perm inner) (stringsOfEntries_perm entries)
  | (_, .map inner) :: entries =>
      perm_merge (stringsOfEntries_perm inner) (stringsOfEntries_perm entries)

end

end Strings

section Complete

/-- Some document declares the key under the kind. -/
def Declared (documents : List (String × Document)) (r : Reference) : Prop :=
  ∃ d ∈ documents, ∃ kinds, lookup d.2 "resources" = some (.map kinds) ∧
    ∃ names, (.str r.1, .map names) ∈ kinds ∧ ∃ node, (.str r.2, node) ∈ names

/-- The pairs of a document. -/
def declarationsOf (document : Document) : List (YamlKey × YamlKey) :=
  match lookup document "resources" with
  | some (.map kinds) => kinds.flatMap fun e => declaredOfKind e.1 e.2
  | _ => []

def declarations (documents : List (String × Document)) : List (YamlKey × YamlKey) :=
  documents.flatMap fun d => declarationsOf d.2

/-- The errors of all references, in all strings, to resources that no document declares. -/
def danglingErrors (documents : List (String × Document)) : List String :=
  documents.flatMap fun d => (strings (.map d.2)).flatMap fun value =>
    ((Text.allMatches referenceAt value.toList).filter fun r =>
      (.str r.1, .str r.2) ∉ declarations documents).map (errorText d.1)

/-- The resources are a mapping, or nothing. -/
def ResourcesMapping (document : Document) : Prop :=
  ∀ node, lookup document "resources" = some node → node.truthy = true →
    ∃ kinds, node = .map kinds

/-- The frames suffice for the nesting of every document. -/
def Shallow (limit : Nat) (documents : List (String × Document)) : Prop :=
  ∀ d ∈ documents, frames (.map d.2) ≤ limit

/-- No reference to an undeclared resource is in an element of a list. -/
def ElementsDeclared (documents : List (String × Document)) : Prop :=
  ∀ d ∈ documents, ∀ value ∈ elementStrings (.map d.2),
    ∀ r ∈ Text.allMatches referenceAt value.toList, Declared documents r

variable {documents : List (String × Document)} {document : Document} {r : Reference}

theorem mem_declarationsOf : (.str r.1, .str r.2) ∈ declarationsOf document ↔
    ∃ kinds, lookup document "resources" = some (.map kinds) ∧
      ∃ names, (.str r.1, .map names) ∈ kinds ∧ ∃ node, (.str r.2, node) ∈ names := by
  unfold declarationsOf
  split
  · rename_i kinds hresources
    rw [List.mem_flatMap]
    constructor
    · rintro ⟨⟨kind, entries⟩, hkind, hmem⟩
      cases entries with
      | map names =>
          obtain ⟨⟨key, node⟩, hname, same⟩ := List.mem_map.mp hmem
          obtain ⟨rfl, rfl⟩ := Prod.mk.inj same
          exact ⟨kinds, hresources, names, hkind, node, hname⟩
      | _ => cases hmem
    · rintro ⟨kinds', hresources', names, hkind, node, hname⟩
      obtain rfl := Yaml.map.inj (Option.some.inj (hresources.symm.trans hresources'))
      exact ⟨_, hkind, List.mem_map.mpr ⟨_, hname, rfl⟩⟩
  · rename_i other
    refine iff_of_false (by simp) ?_
    rintro ⟨kinds, hresources, -⟩
    exact other kinds hresources

theorem mem_declarations : (.str r.1, .str r.2) ∈ declarations documents ↔
    Declared documents r := by
  simp only [declarations, List.mem_flatMap, mem_declarationsOf]
  rfl

theorem resourceKinds_of_mapping (mapping : ResourcesMapping document) :
    ∃ kinds, resourceKinds document = .ok kinds ∧
      kinds.flatMap (fun e => declaredOfKind e.1 e.2) = declarationsOf document := by
  rw [resourceKinds, declarationsOf]
  cases h : lookup document "resources" with
  | none => exact ⟨[], rfl, rfl⟩
  | some node =>
      rw [Option.filter_some]
      cases htruthy : node.truthy with
      | true =>
          obtain ⟨kinds, rfl⟩ := mapping node h htruthy
          exact ⟨kinds, rfl, rfl⟩
      | false =>
          refine ⟨[], rfl, ?_⟩
          cases node with
          | map kinds =>
              have none : kinds = [] := by simpa [Yaml.truthy] using htruthy
              rw [none]
          | _ => rfl

theorem resourceKinds_of_not_mapping (other : ¬ResourcesMapping document) :
    resourceKinds document = .error .noItems := by
  unfold ResourcesMapping at other
  push Not at other
  obtain ⟨node, h, truthy, nonmap⟩ := other
  have kept : (lookup document "resources").filter Yaml.truthy = some node := by
    rw [h, Option.filter_some, if_pos truthy]
  rw [resourceKinds, kept]
  cases node with
  | map kinds => exact absurd rfl (nonmap kinds)
  | _ => rfl

theorem declaredBy_of_mapping (mapping : ∀ d ∈ documents, ResourcesMapping d.2) :
    declaredBy documents = .ok (declarations documents) := by
  induction documents with
  | nil => rfl
  | cons d documents ih =>
      obtain ⟨hd, mapping⟩ := List.forall_mem_cons.mp mapping
      obtain ⟨kinds, hkinds, hdeclared⟩ := resourceKinds_of_mapping hd
      simp only [declaredBy, hkinds, ih mapping, hdeclared]
      rfl

theorem mapping_of_declaredBy {declared : List (YamlKey × YamlKey)}
    (h : declaredBy documents = .ok declared) : ∀ d ∈ documents, ResourcesMapping d.2 := by
  induction documents generalizing declared with
  | nil => simp
  | cons d documents ih =>
      by_cases hd : ResourcesMapping d.2
      · refine List.forall_mem_cons.mpr ⟨hd, ?_⟩
        obtain ⟨kinds, hkinds, -⟩ := resourceKinds_of_mapping hd
        simp only [declaredBy, hkinds] at h
        split at h
        · cases h
        · rename_i others hothers
          exact ih hothers
      · simp only [declaredBy, resourceKinds_of_not_mapping hd] at h
        cases h

/-- The errors of the strings that `walk` yields. -/
def foundErrors (documents : List (String × Document)) : List String :=
  documents.flatMap fun d =>
    (yielded (.map d.2)).flatMap fun e => errorsOf (declarations documents) d.1 e.2

/-- The errors that are not found: those of the elements of lists. -/
def missedErrors (documents : List (String × Document)) : List String :=
  documents.flatMap fun d =>
    (elementStrings (.map d.2)).flatMap (errorsOf (declarations documents) d.1)

private theorem flatMap_perm {α β : Type} {f g h : α → List β} {xs : List α}
    (each : ∀ x ∈ xs, (f x).Perm (g x ++ h x)) :
    (xs.flatMap f).Perm (xs.flatMap g ++ xs.flatMap h) := by
  induction xs with
  | nil => exact List.Perm.refl _
  | cons x xs ih =>
      obtain ⟨hx, each⟩ := List.forall_mem_cons.mp each
      rw [List.flatMap_cons, List.flatMap_cons, List.flatMap_cons]
      refine (hx.append (ih each)).trans ?_
      rw [List.append_assoc, List.append_assoc]
      refine List.Perm.append_left _ ?_
      rw [← List.append_assoc, ← List.append_assoc]
      exact List.perm_append_comm.append_right _

/-- All errors are those that are found, and those that are missed. -/
theorem danglingErrors_perm (documents : List (String × Document)) :
    (danglingErrors documents).Perm
      (foundErrors documents ++ missedErrors documents) := by
  refine flatMap_perm fun d _ => ?_
  have all : ∀ value, ((Text.allMatches referenceAt value.toList).filter fun r =>
      (.str r.1, .str r.2) ∉ declarations documents).map (errorText d.1) =
        errorsOf (declarations documents) d.1 value := fun value => by
    rw [errorsOf, findReferences_eq]
  simp only [all]
  have split := (stringsOfEntries_perm d.2).flatMap_right
    (errorsOf (declarations documents) d.1)
  rwa [List.flatMap_append, List.flatMap_map] at split

theorem missedErrors_eq_nil : missedErrors documents = [] ↔ ElementsDeclared documents := by
  simp only [missedErrors, List.flatMap_eq_nil_iff, errorsOf, List.map_eq_nil_iff,
    List.filter_eq_nil_iff, findReferences_eq, decide_eq_true_eq, not_not, mem_declarations]
  rfl

theorem errorsIn_eq (limit : Nat) (declared : List (YamlKey × YamlKey)) (d : String × Document) :
    errorsIn limit declared d = within (frames (.map d.2)) limit
      ((yielded (.map d.2)).flatMap fun e => errorsOf declared d.1 e.2) := by
  rw [errorsIn, walk_eq]
  unfold within
  split <;> rfl

/-- The loop ends with the errors of all documents when none is too deep, and raises
otherwise. -/
theorem errorsInAll_eq (limit : Nat) (declared : List (YamlKey × YamlKey))
    (documents : List (String × Document)) : errorsInAll limit declared documents =
      within ((documents.map fun d => frames (.map d.2)).foldr max 0) limit
        (documents.flatMap fun d =>
          (yielded (.map d.2)).flatMap fun e => errorsOf declared d.1 e.2) := by
  induction documents with
  | nil => rfl
  | cons d documents ih =>
      rw [errorsInAll, errorsIn_eq, ih]
      exact within_append _ _ _ _ _

theorem foldr_max_le {limit : Nat} {xs : List Nat} :
    xs.foldr max 0 ≤ limit ↔ ∀ n ∈ xs, n ≤ limit := by
  induction xs with
  | nil => simp
  | cons n xs ih => rw [List.foldr_cons, max_le_iff, ih, List.forall_mem_cons]

theorem errorsInAll_declarations {limit : Nat} {errors : List String} :
    errorsInAll limit (declarations documents) documents = .ok errors ↔
      Shallow limit documents ∧ foundErrors documents = errors := by
  have deepest : (documents.map fun d => frames (.map d.2)).foldr max 0 ≤ limit ↔
      Shallow limit documents := foldr_max_le.trans List.forall_mem_map
  rw [errorsInAll_eq, within]
  by_cases shallow : Shallow limit documents
  · rw [if_pos (deepest.mpr shallow), and_iff_right shallow]
    exact ⟨Except.ok.inj, congrArg Except.ok⟩
  · rw [if_neg fun h => shallow (deepest.mp h)]
    exact iff_of_false (by rintro ⟨⟩) fun h => shallow h.1

/-- The errors are those of all references to undeclared resources exactly when the resources
of every document are a mapping, or nothing, no document is too deep, and no element of a
list has such a reference. -/
theorem checkReferences_complete_iff (limit : Nat) (documents : List (String × Document)) :
    (∃ errors, checkReferences limit documents = .ok errors ∧
      errors.Perm (danglingErrors documents)) ↔
        (∀ d ∈ documents, ResourcesMapping d.2) ∧ Shallow limit documents ∧
          ElementsDeclared documents := by
  have perm := danglingErrors_perm documents
  rw [← missedErrors_eq_nil, checkReferences]
  constructor
  · rintro ⟨errors, returned, complete⟩
    cases h : declaredBy documents with
    | error e =>
        rw [h] at returned
        cases returned
    | ok declared =>
        have mapping := mapping_of_declaredBy h
        obtain rfl := Except.ok.inj (h.symm.trans (declaredBy_of_mapping mapping))
        rw [h] at returned
        obtain ⟨shallow, rfl⟩ := errorsInAll_declarations.mp returned
        have lengths := (complete.trans perm).length_eq
        rw [List.length_append] at lengths
        exact ⟨mapping, shallow, List.length_eq_zero_iff.mp (by omega)⟩
  · rintro ⟨mapping, shallow, missed⟩
    rw [missed, List.append_nil] at perm
    rw [declaredBy_of_mapping mapping]
    exact ⟨_, errorsInAll_declarations.mpr ⟨shallow, rfl⟩, perm.symm⟩

/-- A job with a reference to no pipeline in a list. -/
def ghostInList : List (String × Document) :=
  [("a.yml", [(.str "resources", .map [(.str "jobs", .map [(.str "nightly", .map
    [(.str "libraries", .seq [.str "$\x7bresources.pipelines.ghost.id\x7d"])])])])])]

/-- The reference is not reported. -/
theorem ghostInList_missed : checkReferences 1000 ghostInList = .ok [] ∧
    danglingErrors ghostInList = ["a.yml: reference to undeclared resource pipelines.ghost"] := by
  constructor
  · rfl
  · decide

end Complete

end PaymentsPlatform.Bundle
