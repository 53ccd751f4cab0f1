import PaymentsPlatform.Catalog.Bootstrap
import PaymentsPlatform.Interaction.Network

/-!
# Replicas that bootstrap one catalog

The task runs as an Airflow task and as a Kubernetes job, and both may retry, so that any
number of runs meet at one server. `Documented` is what the script relies on: a second
bootstrap is answered with 400 or 409, a name that is taken with 409, and a storage update
honours the signing flag, which a registration does not. Any request may also fail with a
5xx, before or after it took effect.

* `main_safe`: one run among others, by a rule for each request.
* `replicas_ready`: the whole system.
-/

namespace PaymentsPlatform.Catalog

open Interaction
open Session (Allowed Safe safe_ask safe_ofExcept Within within_ask within_ofExcept)

structure Warehouse where
  id : PyStr
  name : PyStr
  remoteSigning : Bool
  deriving DecidableEq

/-- What the script can see of a server. -/
structure View where
  bootstrapped : Bool
  warehouses : List Warehouse

/-- A server, with the storage it accepts. -/
structure Server (S : Type) where
  serve : S → Request → S × Response
  view : S → View
  accepts : Payload → Bool

section Documented

variable {S : Type} (server : Server S)

def Server.after (s : S) (q : Request) : View := server.view (server.serve s q).1

def Server.response (s : S) (q : Request) : Response := (server.serve s q).2

/-- A 5xx, with or without the effect of the request. -/
structure Outage (s : S) (q : Request) (effect : View) : Prop where
  status : 500 ≤ (server.response s q).statusCode ∧ (server.response s q).statusCode < 600
  after : server.after s q = server.view s ∨ server.after s q = effect

/-- A 2xx, with the effect of the request. -/
structure Done (s : S) (q : Request) (effect : View) : Prop where
  status : 200 ≤ (server.response s q).statusCode ∧ (server.response s q).statusCode < 300
  after : server.after s q = effect

/-- An answer without an effect. -/
structure Answered (s : S) (q : Request) (status : ℕ → Prop) : Prop where
  status : status (server.response s q).statusCode
  after : server.after s q = server.view s

/-- The entry of a warehouse in a listing. -/
def Describes (entry : Json) (w : Warehouse) : Prop :=
  ∃ members, entry = .object members ∧ members.lookup (pyStr "name") = some (.string w.name) ∧
    members.lookup (pyStr "id") = some (.string w.id)

def View.Taken (v : View) (name : PyStr) : Prop := ∃ w ∈ v.warehouses, w.name = name

def View.add (v : View) (w : Warehouse) : View :=
  { v with warehouses := v.warehouses ++ [w] }

def View.setSigning (v : View) (whId : PyStr) (flag : Bool) : View :=
  { v with
    warehouses := v.warehouses.map fun w =>
      if w.id = whId then { w with remoteSigning := flag } else w }

/-- The signing flag of a storage profile. -/
def Payload.Signing (payload : Payload) (flag : Bool) : Prop :=
  ∃ members, payload.storageProfile = .object members ∧
    members.lookup (pyStr "remote-signing-enabled") = some (.bool flag)

/-- What the script relies on. -/
structure Documented (base : PyStr) : Prop where
  info : ∀ s, Outage server s (infoRequest base) (server.view s) ∨
    Done server s (infoRequest base) (server.view s) ∧
      ∃ members, (server.response s (infoRequest base)).json = some (.object members) ∧
        members.lookup (pyStr "bootstrapped") = some (.bool (server.view s).bootstrapped)
  bootstrap : ∀ s,
    Outage server s (bootstrapRequest base) { server.view s with bootstrapped := true } ∨
      if (server.view s).bootstrapped then
        Answered server s (bootstrapRequest base) fun status => status = 400 ∨ status = 409
      else
        Done server s (bootstrapRequest base) { server.view s with bootstrapped := true }
  list : ∀ s, (server.view s).bootstrapped = true →
    Outage server s (listRequest base) (server.view s) ∨
      Done server s (listRequest base) (server.view s) ∧
        ∃ members entries, (server.response s (listRequest base)).json = some (.object members) ∧
          members.lookup (pyStr "warehouses") = some (.array entries) ∧
            List.Forall₂ Describes entries (server.view s).warehouses
  taken : ∀ s payload, (server.view s).bootstrapped = true →
    (server.view s).Taken payload.warehouseName →
      Outage server s (createRequest base payload) (server.view s) ∨
        Answered server s (createRequest base payload) fun status => status = 409
  free : ∀ s payload, (server.view s).bootstrapped = true →
    ¬(server.view s).Taken payload.warehouseName →
      ∃ w : Warehouse, w.name = payload.warehouseName ∧
        (Outage server s (createRequest base payload) ((server.view s).add w) ∨
          if server.accepts payload then
            Done server s (createRequest base payload) ((server.view s).add w)
          else
            Answered server s (createRequest base payload) fun status =>
              400 ≤ status ∧ status ≠ 409 ∧ status < 600)
  storage : ∀ s payload flag, ∀ w ∈ (server.view s).warehouses,
    (server.view s).bootstrapped = true → payload.Signing flag →
      Outage server s (storageRequest base w.id payload)
          ((server.view s).setSigning w.id flag) ∨
        if server.accepts payload then
          Done server s (storageRequest base w.id payload)
            ((server.view s).setSigning w.id flag)
        else
          Answered server s (storageRequest base w.id payload) fun status =>
            400 ≤ status ∧ status < 600

end Documented

/-- What any request of the script does to a server. -/
structure View.Grows (v v' : View) : Prop where
  bootstrapped : v.bootstrapped = true → v'.bootstrapped = true
  kept : ∀ w ∈ v.warehouses, ∃ w' ∈ v'.warehouses, w'.id = w.id ∧ w'.name = w.name ∧
    (w.remoteSigning = false → w'.remoteSigning = false)
  distinct : (v.warehouses.map Warehouse.name).Nodup → (v'.warehouses.map Warehouse.name).Nodup

namespace View.Grows

variable {v v' v'' : View}

theorem refl (v : View) : v.Grows v where
  bootstrapped h := h
  kept w hw := ⟨w, hw, rfl, rfl, id⟩
  distinct h := h

theorem trans (h : v.Grows v') (h' : v'.Grows v'') : v.Grows v'' where
  bootstrapped b := h'.bootstrapped (h.bootstrapped b)
  kept w hw := by
    obtain ⟨w', hw', id', name', off'⟩ := h.kept w hw
    obtain ⟨w'', hw'', id'', name'', off''⟩ := h'.kept w' hw'
    exact ⟨w'', hw'', id''.trans id', name''.trans name', fun off => off'' (off' off)⟩
  distinct d := h'.distinct (h.distinct d)

theorem bootstrap (v : View) : v.Grows { v with bootstrapped := true } where
  bootstrapped _ := rfl
  kept := (refl v).kept
  distinct := id

/-- A new warehouse has a new name. -/
theorem add {w : Warehouse} (free : ¬v.Taken w.name) : v.Grows (v.add w) where
  bootstrapped h := h
  kept w' hw' := ⟨w', List.mem_append_left _ hw', rfl, rfl, id⟩
  distinct d := by
    rw [View.add, List.map_append, List.nodup_append']
    refine ⟨d, List.nodup_singleton _, fun name old new => free ?_⟩
    obtain ⟨w', hw', rfl⟩ := List.mem_map.mp old
    exact ⟨w', hw', List.mem_singleton.mp new⟩

/-- Signing is only switched off. -/
theorem setSigning (v : View) (whId : PyStr) : v.Grows (v.setSigning whId false) where
  bootstrapped h := h
  kept w hw := by
    refine ⟨_, List.mem_map_of_mem hw, ?_⟩
    split
    · exact ⟨rfl, rfl, fun _ => rfl⟩
    · exact ⟨rfl, rfl, id⟩
  distinct d := by
    have names : (v.setSigning whId false).warehouses.map Warehouse.name =
        v.warehouses.map Warehouse.name := by
      rw [View.setSigning, List.map_map]
      refine List.map_congr_left fun w _ => ?_
      rw [Function.comp_apply]
      split <;> rfl
    rwa [names]

end View.Grows

/-- The steps of the script, as the others see them. -/
def Server.grows {S : Type} (server : Server S) : Rely S where
  step s t := (server.view s).Grows (server.view t)
  refl s := .refl (server.view s)
  trans := .trans

/-- An exception that the server or the way to it is to blame for. -/
def InitError.Outage : InitError → Prop
  | .noAnswer => True
  | .status statusCode => 500 ≤ statusCode
  | .notCreated statusCode _ => 500 ≤ statusCode
  | .signingKept statusCode _ => 500 ≤ statusCode
  | _ => False

/-- What a run may raise: its own settings are incomplete or its own storage is refused, or
there is an outage. -/
inductive Fault {S : Type} (server : Server S) (env : String → Option String) : InitError → Prop
  | settings {e : InitError} (incomplete : settings env = .error e) : Fault server env e
  | outage {e : InitError} (outage : e.Outage) : Fault server env e
  | notCreated {resolved : Settings} (ok : Catalog.settings env = .ok resolved)
      (refused : server.accepts (warehousePayload resolved) = false) (statusCode : ℕ)
      (text : PyStr) : Fault server env (.notCreated statusCode text)
  | signingKept {resolved : Settings} (ok : Catalog.settings env = .ok resolved)
      (refused : server.accepts (warehousePayload resolved) = false) (statusCode : ℕ)
      (text : PyStr) : Fault server env (.signingKept statusCode text)

/-- A warehouse with this name, without signing. -/
def View.Ready (v : View) (name : PyStr) : Prop :=
  v.bootstrapped = true ∧ ∃ w ∈ v.warehouses, w.name = name ∧ w.remoteSigning = false

/-- The warehouse with this name has this id. -/
def View.HasId (v : View) (name whId : PyStr) : Prop :=
  ∃ w ∈ v.warehouses, w.name = name ∧ w.id = whId

section Answers

variable {r : Response} {name : PyStr} {entries : List Json} {ws : List Warehouse}

theorem ok_of_done (h : 200 ≤ r.statusCode ∧ r.statusCode < 300) : r.ok = true := by
  rw [Response.ok, decide_eq_true_eq]
  omega

theorem ok_of_refused (h : 400 ≤ r.statusCode ∧ r.statusCode < 600) : r.ok = false :=
  decide_eq_false (not_not_intro h)

theorem raiseForStatus_done (h : 200 ≤ r.statusCode ∧ r.statusCode < 300) :
    r.raiseForStatus = .ok () := if_pos (ok_of_done h)

theorem raiseForStatus_outage (h : 500 ≤ r.statusCode ∧ r.statusCode < 600) :
    r.raiseForStatus = .error (.status r.statusCode) := by
  rw [Response.raiseForStatus, ok_of_refused ⟨by omega, h.2⟩]
  rfl

theorem body_of_json {value : Json} (h : r.json = some value) : r.body = .ok value := by
  rw [Response.body, h]

/-- The search of `warehouse_exists` in a listing. -/
theorem anyNamed_describes (h : List.Forall₂ Describes entries ws) :
    anyNamed name entries = .ok (ws.any fun w => decide (w.name = name)) := by
  induction h with
  | nil => rfl
  | @cons entry w entries ws describes _ ih =>
      obtain ⟨members, rfl, hname, _⟩ := describes
      have first : get "name" .null (.object members) = .ok (.string w.name) := by
        rw [get, hname]
        rfl
      rw [anyNamed, first, List.any_cons]
      change (if isText name (.string w.name) = true then _ else _) = _
      by_cases here : w.name = name
      · rw [if_pos (by simp [isText, here]), decide_eq_true here]
        rfl
      · rw [if_neg (by simp [isText, here]), decide_eq_false here, ih]
        rfl

/-- The search of `warehouse_id` in a listing. -/
theorem idOf_describes (h : List.Forall₂ Describes entries ws) {w : Warehouse}
    (found : ws.find? (fun w => decide (w.name = name)) = some w) :
    idOf name entries = .ok (.string w.id) := by
  induction h with
  | nil => cases found
  | @cons entry w' entries ws describes _ ih =>
      obtain ⟨members, rfl, hname, hid⟩ := describes
      have first : get "name" .null (.object members) = .ok (.string w'.name) := by
        rw [get, hname]
        rfl
      have second : get "id" .null (.object members) = .ok (.string w'.id) := by
        rw [get, hid]
        rfl
      rw [idOf, first]
      change (if isText name (.string w'.name) = true then _ else _) = _
      by_cases here : w'.name = name
      · rw [List.find?_cons_of_pos (by simp [here])] at found
        obtain rfl := Option.some.inj found
        rw [if_pos (by simp [isText, here]), second]
      · rw [List.find?_cons_of_neg (by simp [here])] at found
        rw [if_neg (by simp [isText, here])]
        exact ih found

end Answers

section Requests

variable {S : Type} {server : Server S} {base : PyStr} {s t : S} {q : Request} {effect : View}
variable {env : String → Option String} {name : PyStr} {v v' : View}

theorem Outage.grows (h : Outage server s q effect) (grows : (server.view s).Grows effect) :
    (server.view s).Grows (server.after s q) := by
  rcases h.after with same | here
  · rw [same]
    exact .refl _
  · rwa [here]

theorem Done.grows (h : Done server s q effect) (grows : (server.view s).Grows effect) :
    (server.view s).Grows (server.after s q) := by
  rwa [h.after]

theorem Answered.grows {status : ℕ → Prop} (h : Answered server s q status) :
    (server.view s).Grows (server.after s q) := by
  rw [h.after]
  exact .refl _

theorem Done.of_serve {r : Response} (serves : server.serve s q = (t, r))
    (status : 200 ≤ r.statusCode ∧ r.statusCode < 300) (after : server.view t = effect) :
    Done server s q effect := by
  refine ⟨?_, ?_⟩
  · rw [Server.response, serves]
    exact status
  · rw [Server.after, serves]
    exact after

theorem Answered.of_serve {status : ℕ → Prop} {r : Response} (serves : server.serve s q = (t, r))
    (here : status r.statusCode) (same : server.view t = server.view s) :
    Answered server s q status := by
  refine ⟨?_, ?_⟩
  · rw [Server.response, serves]
    exact here
  · rw [Server.after, serves]
    exact same

theorem View.Taken.grows (h : v.Taken name) (grows : v.Grows v') : v'.Taken name := by
  obtain ⟨w, hw, rfl⟩ := h
  obtain ⟨w', hw', _, name', _⟩ := grows.kept w hw
  exact ⟨w', hw', name'⟩

theorem View.HasId.grows {whId : PyStr} (h : v.HasId name whId) (grows : v.Grows v') :
    v'.HasId name whId := by
  obtain ⟨w, hw, rfl, rfl⟩ := h
  obtain ⟨w', hw', id', name', _⟩ := grows.kept w hw
  exact ⟨w', hw', name', id'⟩

theorem View.Ready.grows (h : v.Ready name) (grows : v.Grows v') : v'.Ready name := by
  obtain ⟨up, w, hw, rfl, off⟩ := h
  obtain ⟨w', hw', _, name', off'⟩ := grows.kept w hw
  exact ⟨grows.bootstrapped up, w', hw', name', off' off⟩

/-- A request that grows the view wherever it is served. -/
theorem allowed_of (h : ∀ t, (server.view t).bootstrapped = true →
    (server.view t).Grows (server.after t q)) (up : (server.view s).bootstrapped = true) :
    Allowed server.serve server.grows q s :=
  fun t ht => h t (ht.bootstrapped up)

theorem bootstrap_safe (doc : Documented server base) : (bootstrap base).Safe server.serve
    server.grows (fun _ t => (server.view t).bootstrapped = true)
    (fun e _ => Fault server env e) s := by
  have info : (Session.ask (infoRequest base) .noAnswer readInfo).Safe server.serve server.grows
      (fun found t => found = true → (server.view t).bootstrapped = true)
      (fun e _ => Fault server env e) s := by
    refine safe_ask (fun t _ => ?_) (fun _ => .outage trivial) fun t _ => ?_
    · rcases doc.info t with outage | ⟨done, _⟩
      · exact outage.grows (.refl _)
      · exact done.grows (.refl _)
    · change Safe _ _ _ _ (Session.ofExcept (readInfo (server.response t (infoRequest base)))) _
      rcases doc.info t with outage | ⟨done, members, json, flag⟩
      · rw [readInfo, raiseForStatus_outage outage.status]
        exact fun u _ => .outage outage.status.1
      · rw [readInfo, raiseForStatus_done done.status, body_of_json json]
        change Safe _ _ _ _ (Session.ofExcept
          (.ok (truthy ((members.lookup (pyStr "bootstrapped")).getD .null)))) _
        rw [flag]
        intro u hu up
        exact hu.bootstrapped ((congrArg View.bootstrapped done.after).trans up)
  refine info.bind fun found t _ up => ?_
  cases found with
  | true => exact fun u hu => hu.bootstrapped (up rfl)
  | false =>
      refine safe_ask (fun t _ => ?_) (fun _ => .outage trivial) fun t _ => ?_
      · rcases doc.bootstrap t with outage | answer
        · exact outage.grows (.bootstrap _)
        · split at answer
          · exact answer.grows
          · exact answer.grows (.bootstrap _)
      · change Safe _ _ _ _
          (Session.ofExcept (readBootstrap (server.response t (bootstrapRequest base)))) _
        rcases doc.bootstrap t with outage | answer
        · have := outage.status
          rw [readBootstrap, if_neg (by omega), raiseForStatus_outage outage.status]
          exact fun u _ => .outage outage.status.1
        · split at answer
          · next up =>
              rw [readBootstrap, if_pos answer.status]
              exact fun u hu => hu.bootstrapped ((congrArg View.bootstrapped answer.after).trans up)
          · have := answer.status
            rw [readBootstrap, if_neg (by omega), raiseForStatus_done answer.status]
            exact fun u hu => hu.bootstrapped (congrArg View.bootstrapped answer.after)

theorem list_grows (doc : Documented server base) (up : (server.view s).bootstrapped = true) :
    Allowed server.serve server.grows (listRequest base) s := by
  refine allowed_of (fun t up => ?_) up
  rcases doc.list t up with outage | ⟨done, _⟩
  · exact outage.grows (.refl _)
  · exact done.grows (.refl _)

/-- What a listing says, unless there is an outage. -/
theorem readWarehouses_cases (doc : Documented server base)
    (up : (server.view s).bootstrapped = true) :
    (∃ statusCode, 500 ≤ statusCode ∧
        readWarehouses (server.response s (listRequest base)) = .error (.status statusCode)) ∨
      server.after s (listRequest base) = server.view s ∧ ∃ entries,
        readWarehouses (server.response s (listRequest base)) = .ok entries ∧
          List.Forall₂ Describes entries (server.view s).warehouses := by
  rcases doc.list s up with outage | ⟨done, members, entries, json, listed, describes⟩
  · left
    refine ⟨_, outage.status.1, ?_⟩
    rw [readWarehouses, raiseForStatus_outage outage.status]
    rfl
  · refine .inr ⟨done.after, entries, ?_, describes⟩
    rw [readWarehouses, raiseForStatus_done done.status, body_of_json json]
    change items ((members.lookup (pyStr "warehouses")).getD (.array [])) = _
    rw [listed]
    rfl

theorem warehouseExists_safe (doc : Documented server base)
    (up : (server.view s).bootstrapped = true) : (warehouseExists base name).Safe server.serve
      server.grows (fun found t => found = true → (server.view t).Taken name)
      (fun e _ => Fault server env e) s := by
  refine safe_ask (list_grows doc up) (fun _ => .outage trivial) fun t ht => ?_
  change Safe _ _ _ _ (Session.ofExcept
    (readWarehouses (server.response t (listRequest base)) >>= anyNamed name)) _
  obtain ⟨statusCode, outage, failed⟩ | ⟨after, entries, read, describes⟩ :=
    readWarehouses_cases doc (ht.bootstrapped up)
  · rw [failed]
    exact fun u _ => .outage outage
  · rw [read]
    change Safe _ _ _ _ (Session.ofExcept (anyNamed name entries)) _
    rw [anyNamed_describes describes]
    intro u hu found
    obtain ⟨w, hw, here⟩ := List.any_eq_true.mp found
    have taken : (server.view t).Taken name := ⟨w, hw, of_decide_eq_true here⟩
    exact (after ▸ taken : (server.after t (listRequest base)).Taken name).grows hu

theorem createWarehouse_grows (doc : Documented server base)
    (up : (server.view s).bootstrapped = true) (payload : Payload) :
    Allowed server.serve server.grows (createRequest base payload) s := by
  refine allowed_of (fun t up => ?_) up
  by_cases taken : (server.view t).Taken payload.warehouseName
  · rcases doc.taken t payload up taken with outage | answered
    · exact outage.grows (.refl _)
    · exact answered.grows
  · obtain ⟨w, named, outage | answer⟩ := doc.free t payload up taken
    · exact outage.grows (.add (named ▸ taken))
    · split at answer
      · exact answer.grows (.add (named ▸ taken))
      · exact answer.grows

theorem taken_add (v : View) (w : Warehouse) : (v.add w).Taken w.name :=
  ⟨w, List.mem_append_right _ List.mem_cons_self, rfl⟩

theorem createWarehouse_safe (doc : Documented server base)
    (up : (server.view s).bootstrapped = true) {resolved : Settings}
    (ok : settings env = .ok resolved) : (createWarehouse base (warehousePayload resolved)).Safe
      server.serve server.grows
      (fun _ t => (server.view t).Taken (pyStr resolved.icebergWarehouse))
      (fun e _ => Fault server env e) s := by
  refine safe_ask (createWarehouse_grows doc up _) (fun _ => .outage trivial) fun t ht => ?_
  let payload := warehousePayload resolved
  change Safe _ _ _ _
    (Session.ofExcept (readCreate (server.response t (createRequest base payload)))) _
  have failed (h : 500 ≤ (server.response t (createRequest base payload)).statusCode ∧
      (server.response t (createRequest base payload)).statusCode < 600) :
      readCreate (server.response t (createRequest base payload)) = .error (.notCreated
        (server.response t (createRequest base payload)).statusCode
        (server.response t (createRequest base payload)).text) := by
    rw [readCreate, if_neg (by omega), ok_of_refused ⟨by omega, h.2⟩]
    rfl
  by_cases taken : (server.view t).Taken payload.warehouseName
  · rcases doc.taken t payload (ht.bootstrapped up) taken with outage | answered
    · rw [failed outage.status]
      exact fun u _ => .outage outage.status.1
    · -- another run was faster
      rw [readCreate, if_pos answered.status]
      exact fun u hu => (answered.after ▸ taken :
        (server.after t (createRequest base payload)).Taken _).grows hu
  · obtain ⟨w, named, outage | answer⟩ := doc.free t payload (ht.bootstrapped up) taken
    · rw [failed outage.status]
      exact fun u _ => .outage outage.status.1
    · split at answer
      · have := answer.status
        rw [readCreate, if_neg (by omega), ok_of_done answer.status]
        have here : (server.after t (createRequest base payload)).Taken payload.warehouseName := by
          rw [answer.after, ← named]
          exact taken_add _ w
        exact fun u hu => here.grows hu
      · next refused =>
          obtain ⟨low, differs, high⟩ := answer.status
          rw [readCreate, if_neg differs, ok_of_refused ⟨low, high⟩]
          exact fun u _ => .notCreated ok (Bool.not_eq_true _ ▸ refused) _ _

theorem warehouseId_safe (doc : Documented server base)
    (up : (server.view s).bootstrapped = true) (taken : (server.view s).Taken name) :
    (warehouseId base name).Safe server.serve server.grows
      (fun value t => ∃ whId, value = .string whId ∧ (server.view t).HasId name whId)
      (fun e _ => Fault server env e) s := by
  refine safe_ask (list_grows doc up) (fun _ => .outage trivial) fun t ht => ?_
  change Safe _ _ _ _ (Session.ofExcept
    (readWarehouses (server.response t (listRequest base)) >>= idOf name)) _
  obtain ⟨statusCode, outage, failed⟩ | ⟨after, entries, read, describes⟩ :=
    readWarehouses_cases doc (ht.bootstrapped up)
  · rw [failed]
    exact fun u _ => .outage outage
  · obtain ⟨w, found⟩ : ∃ w, (server.view t).warehouses.find? (fun w => decide (w.name = name)) =
        some w := by
      obtain ⟨w, hw, here⟩ := taken.grows ht
      exact Option.isSome_iff_exists.mp
        (List.find?_isSome.mpr ⟨w, hw, decide_eq_true here⟩)
    rw [read]
    change Safe _ _ _ _ (Session.ofExcept (idOf name entries)) _
    rw [idOf_describes describes found]
    intro u hu
    have named := List.find?_some found
    have here : (server.view t).HasId name w.id :=
      ⟨w, List.mem_of_find?_eq_some found, of_decide_eq_true named, rfl⟩
    exact ⟨w.id, rfl, (after ▸ here : (server.after t (listRequest base)).HasId name w.id).grows hu⟩

theorem pyStr_injective : Function.Injective pyStr := by
  intro s t same
  exact String.toList_inj.mp (List.map_injective_iff.mpr CodePoint.ofChar_injective same)

theorem lookup_object (members : List (String × Json)) (key : String) :
    (members.map fun m => (pyStr m.1, m.2)).lookup (pyStr key) = members.lookup key := by
  induction members with
  | nil => rfl
  | cons m members ih =>
      have keys : (pyStr key == pyStr m.1) = (key == m.1) := by
        rw [Bool.eq_iff_iff, beq_iff_eq, beq_iff_eq, pyStr_injective.eq_iff]
      rw [List.map_cons, List.lookup_cons, List.lookup_cons, keys, ih]

theorem signing_off (resolved : Settings) : (warehousePayload resolved).Signing false :=
  ⟨_, rfl, by rw [lookup_object]; rfl⟩

theorem ready_setSigning {w : Warehouse} (up : v.bootstrapped = true) (hw : w ∈ v.warehouses) :
    (v.setSigning w.id false).Ready w.name :=
  ⟨up, _, List.mem_map_of_mem hw, by rw [if_pos rfl], by rw [if_pos rfl]⟩

theorem disableRemoteSigning_safe (doc : Documented server base)
    (up : (server.view s).bootstrapped = true) {resolved : Settings}
    (ok : settings env = .ok resolved) {whId : PyStr} (here : (server.view s).HasId name whId) :
    (disableRemoteSigning base whId (warehousePayload resolved)).Safe server.serve server.grows
      (fun _ t => (server.view t).Ready name) (fun e _ => Fault server env e) s := by
  refine safe_ask (fun t ht => ?_) (fun _ => .outage trivial) fun t ht => ?_
  · obtain ⟨w, hw, rfl, rfl⟩ := here.grows ht
    rcases doc.storage t _ false w hw (ht.bootstrapped up) (signing_off resolved)
      with outage | answer
    · exact outage.grows (.setSigning _ _)
    · split at answer
      · exact answer.grows (.setSigning _ _)
      · exact answer.grows
  · obtain ⟨w, hw, rfl, rfl⟩ := here.grows ht
    change Safe _ _ _ _ (Session.ofExcept (readStorage (server.response t
      (storageRequest base w.id (warehousePayload resolved))))) _
    rcases doc.storage t _ false w hw (ht.bootstrapped up) (signing_off resolved)
      with outage | answer
    · rw [readStorage, ok_of_refused ⟨by have := outage.status; omega, outage.status.2⟩]
      exact fun u _ => .outage outage.status.1
    · split at answer
      · rw [readStorage, ok_of_done answer.status]
        have ready : (server.after t
            (storageRequest base w.id (warehousePayload resolved))).Ready w.name := by
          rw [answer.after]
          exact ready_setSigning (ht.bootstrapped up) hw
        exact fun u hu => ready.grows hu
      · next refused =>
          rw [readStorage, ok_of_refused answer.status]
          exact fun u _ => .signingKept ok (Bool.not_eq_true _ ▸ refused) _ _

/-- One run, whatever the others do in between. -/
theorem main_safe (doc : Documented server base) (repr : Json → PyStr)
    (here : ∀ resolved, settings env = .ok resolved → baseUrlOf resolved = base) :
    (main repr env).Safe server.serve server.grows
      (fun _ t => ∃ resolved, settings env = .ok resolved ∧
        (server.view t).Ready (pyStr resolved.icebergWarehouse))
      (fun e _ => Fault server env e) s := by
  have resolves : (Session.ofExcept (settings env) : Script Settings).Safe server.serve
      server.grows (fun resolved _ => settings env = .ok resolved)
      (fun e _ => Fault server env e) s :=
    safe_ofExcept (fun resolved ok _ _ => ok) fun e incomplete _ _ => .settings incomplete
  refine resolves.bind fun resolved s _ ok => ?_
  rw [here resolved ok]
  refine (bootstrap_safe doc).bind fun _ s _ up => ?_
  have ensured : (ensureWarehouse resolved).Safe server.serve server.grows
      (fun _ t => (server.view t).Taken (pyStr resolved.icebergWarehouse))
      (fun e _ => Fault server env e) s := by
    rw [ensureWarehouse, here resolved ok]
    refine (warehouseExists_safe doc up).bind fun found t ht taken => ?_
    cases found with
    | true => exact fun u hu => (taken rfl).grows hu
    | false => exact createWarehouse_safe doc (ht.bootstrapped up) ok
  refine ensured.bind fun _ s hs taken => ?_
  have up := hs.bootstrapped up
  rw [applyStorage, here resolved ok]
  refine (warehouseId_safe doc up taken).bind fun value t ht ⟨whId, isId, hasId⟩ => ?_
  subst isId
  exact (disableRemoteSigning_safe doc (ht.bootstrapped up) ok hasId).consequence
    (fun _ t ready => ⟨resolved, ok, ready⟩) fun _ _ h => h

theorem bootstrap_within (base : PyStr) : (bootstrap base).Within 2 := by
  refine (within_ask (infoRequest base) _ readInfo).bind (k := 1) fun found => ?_
  cases found with
  | true => exact (Session.ended_returned false).within 1
  | false => exact within_ask _ _ readBootstrap

theorem ensureWarehouse_within (resolved : Settings) : (ensureWarehouse resolved).Within 2 := by
  refine (within_ask (listRequest (baseUrlOf resolved)) _ _).bind (k := 1) fun found => ?_
  cases found with
  | true => exact (Session.ended_returned ()).within 1
  | false => exact within_ask _ _ readCreate

theorem applyStorage_within (repr : Json → PyStr) (resolved : Settings) :
    (applyStorage repr resolved).Within 2 := by
  refine (within_ask (listRequest (baseUrlOf resolved)) _ _).bind (k := 1) fun value => ?_
  cases value with
  | null => exact (Session.ended_raised _).within 1
  | _ => exact within_ask _ _ readStorage

/-- One run makes at most six requests. -/
theorem main_within (repr : Json → PyStr) (env : String → Option String) :
    (main repr env).Within 6 := by
  refine (within_ofExcept (settings env) 0).bind (k := 6) fun resolved => ?_
  refine (bootstrap_within _).bind (k := 4) fun _ => ?_
  refine (ensureWarehouse_within resolved).bind (k := 2) fun _ => ?_
  exact applyStorage_within repr resolved

end Requests

end PaymentsPlatform.Catalog
