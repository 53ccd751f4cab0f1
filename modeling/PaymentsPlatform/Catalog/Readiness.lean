import PaymentsPlatform.Catalog.Replicas

/-!
# A catalog that is ready

What any number of runs of `init_iceberg_catalog.py` come to, in any interleaving, with
connections that break and runs that are killed and started again: a run that returns
leaves its warehouse there once and without signing, for good, and a run raises for its own
reasons only (`replicas_ready`). `lakekeeper` is a server that keeps to what is documented.
-/

namespace PaymentsPlatform.Catalog

open Interaction
open CodePoint (ofChar)

/-- The runs of the script around one server. -/
def replicas {S ι : Type} [DecidableEq ι] (server : Server S) (repr : Json → PyStr)
    (env : ι → String → Option String) (s : S) (moves : List (Move ι)) :
    Network ι S Request Response InitError Unit :=
  Machine.run (Network.step server.serve fun i => main repr (env i))
    (.initial (fun i => main repr (env i)) s) moves

/-- There is one warehouse with this name, and it is without signing. -/
structure View.ReadyOnce (v : View) (name : PyStr) : Prop where
  bootstrapped : v.bootstrapped = true
  warehouse : ∃ w ∈ v.warehouses, w.name = name ∧ w.remoteSigning = false ∧
    ∀ w' ∈ v.warehouses, w'.name = name → w' = w

theorem View.Ready.once {v : View} {name : PyStr} (h : v.Ready name)
    (distinct : (v.warehouses.map Warehouse.name).Nodup) : v.ReadyOnce name := by
  obtain ⟨up, w, hw, rfl, off⟩ := h
  exact ⟨up, w, hw, rfl, off, fun w' hw' named => List.inj_on_of_nodup_map distinct hw' hw named⟩

/-- Every run that returns leaves its warehouse ready in every later state, every exception
is an outage, incomplete settings, or refused storage of the run itself, and six moves of a
run that is not killed end it. -/
theorem replicas_ready {S ι : Type} [DecidableEq ι] {server : Server S} {base : PyStr}
    (doc : Documented server base) (repr : Json → PyStr) (env : ι → String → Option String)
    (here : ∀ i resolved, settings (env i) = .ok resolved → baseUrlOf resolved = base)
    (s : S) (distinct : ((server.view s).warehouses.map Warehouse.name).Nodup)
    (moves : List (Move ι)) :
    (∀ i, (replicas server repr env s moves).session i = .returned () → ∀ more,
        ∃ resolved, settings (env i) = .ok resolved ∧
          (server.view (replicas server repr env s (moves ++ more)).server).ReadyOnce
            (pyStr resolved.icebergWarehouse)) ∧
      (∀ i e, (replicas server repr env s moves).session i = .raised e →
        Fault server (env i) e) ∧
      ∀ i more, .restart i ∉ more → 6 ≤ more.countP (Network.Move.of i) →
        ((replicas server repr env s (moves ++ more)).session i).Ended := by
  have sound := Network.sound_initial fun i => main_safe (s := s) doc repr (here i)
  have within := fun i => main_within repr (env i)
  refine ⟨fun i returned more => ?_, fun i e raised => ?_, fun i more alive enough => ?_⟩
  · obtain ⟨resolved, ok, ready⟩ := Network.returned_after sound returned more
    exact ⟨resolved, ok, ready.once ((Network.sound_run sound _).1.distinct distinct)⟩
  · exact Network.raised_after sound raised
  · rw [replicas, Machine.run_append]
    exact Network.ended_after (Network.within_run within within moves i) alive enough

section Lakekeeper

variable (base : PyStr)

def respond (statusCode : ℕ) (json : Option Json) : Response := ⟨statusCode, [], json⟩

def entry (w : Warehouse) : Json := object [("name", .string w.name), ("id", .string w.id)]

def storageUrl (whId : PyStr) : PyStr :=
  base ++ pyStr "/management/v1/warehouse/" ++ whId ++ pyStr "/storage"

def member (key : String) : Json → Option Json
  | .object members => members.lookup (pyStr key)
  | _ => none

/-- The name that a registration is for. -/
def nameOf (json : Option Json) : Option PyStr :=
  match json.bind (member "warehouse-name") with
  | some (.string name) => some name
  | _ => none

/-- The signing flag that an update sends. -/
def flagOf (json : Option Json) : Option Bool :=
  match (json.bind (member "storage-profile")).bind (member "remote-signing-enabled") with
  | some (.bool flag) => some flag
  | _ => none

/-- A registration stores signing as on, whatever it says. -/
def serveCreate (v : View) (json : Option Json) : View × Response :=
  match nameOf json with
  | none => (v, respond 400 none)
  | some name =>
      if v.warehouses.any fun w => decide (w.name = name) then (v, respond 409 none)
      else (v.add ⟨v.warehouses.flatMap Warehouse.id ++ pyStr "w", name, true⟩, respond 201 none)

def serveStorage (v : View) (whId : PyStr) (json : Option Json) : View × Response :=
  match flagOf json with
  | none => (v, respond 400 none)
  | some flag => (v.setSigning whId flag, respond 200 none)

def serveGet (v : View) (url : PyStr) : View × Response :=
  if url = (infoRequest base).url then
    (v, respond 200 (some (object [("bootstrapped", .bool v.bootstrapped)])))
  else if url = (listRequest base).url then
    (v, respond 200 (some (object [("warehouses", .array (v.warehouses.map entry))])))
  else (v, respond 404 none)

def servePost (v : View) (url : PyStr) (json : Option Json) : View × Response :=
  if url = (bootstrapRequest base).url then
    if v.bootstrapped then (v, respond 409 none)
    else ({ v with bootstrapped := true }, respond 204 none)
  else if url = (listRequest base).url then serveCreate v json
  else
    match v.warehouses.find? fun w => decide (url = storageUrl base w.id) with
    | some w => serveStorage v w.id json
    | none => (v, respond 404 none)

/-- A catalog server that accepts every storage. -/
def lakekeeper : Server View where
  serve v q :=
    match q.method with
    | .get => serveGet base v q.url
    | .post => servePost base v q.url q.json
  view := id
  accepts _ := true

variable {base}

theorem info_ne_list : (listRequest base).url ≠ (infoRequest base).url := by
  intro same
  exact absurd (List.append_cancel_left same) (by decide)

theorem list_ne_bootstrap : (listRequest base).url ≠ (bootstrapRequest base).url := by
  intro same
  exact absurd (List.append_cancel_left same) (by decide)

theorem storage_ne_list (whId : PyStr) : storageUrl base whId ≠ (listRequest base).url := by
  intro same
  have lengths := congrArg List.length same
  have tail : (pyStr "/management/v1/warehouse/").length =
      (pyStr "/management/v1/warehouse").length + 1 := by decide
  simp only [storageUrl, listRequest, List.length_append] at lengths
  omega

theorem storage_ne_bootstrap (whId : PyStr) :
    storageUrl base whId ≠ (bootstrapRequest base).url := by
  intro same
  rw [storageUrl, List.append_assoc, List.append_assoc] at same
  have tails := congrArg (List.take 16) (List.append_cancel_left same)
  rw [List.take_append_of_le_length (by decide)] at tails
  exact absurd tails (by decide)

theorem storageUrl_injective : Function.Injective (storageUrl base) := by
  intro whId whId' same
  exact List.append_cancel_left (List.append_cancel_right same)

theorem serve_info (v : View) : (lakekeeper base).serve v (infoRequest base) =
    (v, respond 200 (some (object [("bootstrapped", .bool v.bootstrapped)]))) := if_pos rfl

theorem serve_list (v : View) : (lakekeeper base).serve v (listRequest base) =
    (v, respond 200 (some (object [("warehouses", .array (v.warehouses.map entry))]))) :=
  (if_neg info_ne_list).trans (if_pos rfl)

theorem serve_bootstrap (v : View) : (lakekeeper base).serve v (bootstrapRequest base) =
    if v.bootstrapped then (v, respond 409 none)
    else ({ v with bootstrapped := true }, respond 204 none) := if_pos rfl

theorem serve_create (v : View) (payload : Payload) :
    (lakekeeper base).serve v (createRequest base payload) =
      if v.warehouses.any fun w => decide (w.name = payload.warehouseName) then
        (v, respond 409 none)
      else
        (v.add ⟨v.warehouses.flatMap Warehouse.id ++ pyStr "w", payload.warehouseName, true⟩,
          respond 201 none) := by
  have named : nameOf (some payload.registration) = some payload.warehouseName := by
    have name : member "warehouse-name" payload.registration =
        some (.string payload.warehouseName) := lookup_object _ _
    rw [nameOf, Option.bind_some, name]
  change servePost base v (listRequest base).url (some payload.registration) = _
  rw [servePost, if_neg list_ne_bootstrap, if_pos rfl, serveCreate, named]

theorem serve_storage {v : View} {w : Warehouse} (hw : w ∈ v.warehouses) {payload : Payload}
    {flag : Bool} (signing : payload.Signing flag) :
    (lakekeeper base).serve v (storageRequest base w.id payload) =
      (v.setSigning w.id flag, respond 200 none) := by
  have flagged : flagOf (some payload.storage) = some flag := by
    obtain ⟨fields, here, hflag⟩ := signing
    have profile : member "storage-profile" payload.storage = some payload.storageProfile :=
      lookup_object _ _
    have sent : member "remote-signing-enabled" (.object fields) = some (.bool flag) := hflag
    rw [flagOf, Option.bind_some, profile, here, Option.bind_some, sent]
  obtain ⟨w', found⟩ : ∃ w', v.warehouses.find? (fun w' =>
      decide (storageUrl base w.id = storageUrl base w'.id)) = some w' :=
    Option.isSome_iff_exists.mp (List.find?_isSome.mpr ⟨w, hw, decide_eq_true rfl⟩)
  have same := List.find?_some found
  have ids : w.id = w'.id := storageUrl_injective (of_decide_eq_true same)
  change servePost base v (storageUrl base w.id) (some payload.storage) = _
  rw [servePost, if_neg (storage_ne_bootstrap _), if_neg (storage_ne_list _), found]
  change serveStorage v w'.id (some payload.storage) = _
  rw [serveStorage, flagged, ids]

theorem describes_entry (w : Warehouse) : Describes (entry w) w :=
  ⟨_, rfl, by rw [lookup_object]; rfl, by rw [lookup_object]; rfl⟩

theorem any_taken {v : View} {name : PyStr} :
    (v.warehouses.any fun w => decide (w.name = name)) = true ↔ v.Taken name := by
  simp only [List.any_eq_true, decide_eq_true_eq]
  rfl

theorem respond_done (json : Option Json) :
    200 ≤ (respond 200 json).statusCode ∧ (respond 200 json).statusCode < 300 :=
  ⟨le_refl 200, by change 200 < 300; decide⟩

/-- What the server answers is what the script relies on. -/
theorem lakekeeper_documented (base : PyStr) : Documented (lakekeeper base) base where
  info v := .inr ⟨.of_serve (serve_info v) (respond_done _) rfl, _,
    congrArg (fun answer : View × Response => answer.2.json) (serve_info v),
    by rw [lookup_object]; rfl⟩
  bootstrap v := by
    right
    have serves : (lakekeeper base).serve v (bootstrapRequest base) = _ := serve_bootstrap v
    cases up : v.bootstrapped with
    | true =>
        rw [up] at serves
        rw [if_pos (show ((lakekeeper base).view v).bootstrapped = true from up)]
        exact .of_serve serves (.inr rfl) rfl
    | false =>
        rw [up] at serves
        have down : ¬((lakekeeper base).view v).bootstrapped = true := up ▸ Bool.false_ne_true
        rw [if_neg down]
        exact .of_serve serves ⟨by decide, by decide⟩ rfl
  list v _ := by
    refine .inr ⟨.of_serve (serve_list v) (respond_done _) rfl, _, _,
      congrArg (fun answer : View × Response => answer.2.json) (serve_list v),
      by rw [lookup_object]; rfl, ?_⟩
    exact List.forall₂_map_left_iff.mpr (List.forall₂_same.mpr fun w _ => describes_entry w)
  taken v payload _ taken :=
    .inr (.of_serve ((serve_create v payload).trans (if_pos (any_taken.mpr taken))) rfl rfl)
  free v payload _ free :=
    ⟨⟨_, payload.warehouseName, true⟩, rfl, .inr (.of_serve
      ((serve_create v payload).trans (if_neg fun any => free (any_taken.mp any)))
      ⟨by decide, by decide⟩ rfl)⟩
  storage v payload flag w hw _ signing :=
    .inr (.of_serve (serve_storage (v := v) hw signing) (respond_done _) rfl)

end Lakekeeper

/-- An environment with the keys only. -/
def sampleEnv (key : String) : Option String :=
  if key = "S3_ACCESS_KEY" then some "key" else if key = "S3_SECRET_KEY" then some "secret"
  else none

def sampleBase : PyStr := pyStr "http://iceberg-rest:8181"

/-- Both runs find nothing; one loses its registration on the way and starts again. -/
def sampleMoves : List (Move Bool) :=
  [.answer true, .answer false, .answer true, .answer false, .answer true, .answer false,
    .answer false, .giveUp true, .restart true, .answer true, .answer true, .arrive 0,
    .answer true, .answer true, .answer false, .answer false]

theorem sample_base (_ : Bool) (resolved : Settings) (ok : settings sampleEnv = .ok resolved) :
    baseUrlOf resolved = sampleBase := by
  obtain rfl := Except.ok.inj ok
  decide +kernel

theorem sample_returned : (replicas (lakekeeper sampleBase) (fun _ => []) (fun _ => sampleEnv)
    ⟨false, []⟩ sampleMoves).session true = .returned () := by rfl

theorem replicas_ready_two : (replicas (lakekeeper sampleBase) (fun _ => []) (fun _ => sampleEnv)
    ⟨false, []⟩ sampleMoves).session true = .returned () ∧
      ∃ resolved, settings sampleEnv = .ok resolved ∧ (replicas (lakekeeper sampleBase)
        (fun _ => []) (fun _ => sampleEnv) ⟨false, []⟩ (sampleMoves ++ [])).server.ReadyOnce
          (pyStr resolved.icebergWarehouse) :=
  ⟨sample_returned, (replicas_ready (lakekeeper_documented sampleBase) (fun _ => [])
    (fun _ => sampleEnv) sample_base ⟨false, []⟩ List.nodup_nil sampleMoves).1 true
    sample_returned []⟩

end PaymentsPlatform.Catalog
