import PaymentsPlatform.Bronze.Masking
import PaymentsPlatform.Interaction.Session

/-!
# Bootstrapping the catalog

`scripts/init_iceberg_catalog.py`: initialise the Iceberg REST catalog, register the
warehouse, and switch remote signing off. Each function is the session of its requests;
`main` is what one run of the task does.
-/

namespace PaymentsPlatform.Catalog

open Interaction
open Session (ask ofExcept)
open CodePoint (ofChar)

inductive Method where
  | get
  | post
  deriving DecidableEq, Repr

structure Request where
  method : Method
  url : PyStr
  json : Option Json

/-- A response; `json` is `none` where the text is no JSON. -/
structure Response where
  statusCode : ℕ
  text : PyStr
  json : Option Json

inductive InitError where
  | unset (key : String)
  /-- An exception of `requests`. -/
  | noAnswer
  | status (statusCode : ℕ)
  | notJson
  /-- `.get` of a value that is no object. -/
  | attribute
  /-- A loop over a value that has no items. -/
  | notIterable
  | notCreated (statusCode : ℕ) (text : PyStr)
  | signingKept (statusCode : ℕ) (text : PyStr)
  | notFound (name : String)

/-- The exceptions that the script words itself. -/
def InitError.message : InitError → Option PyStr
  | .unset key => some (pyStr s!"{key} must be set")
  | .notCreated statusCode text =>
      some (pyStr s!"warehouse creation failed ({statusCode}): " ++ text.take 400)
  | .signingKept statusCode text =>
      some (pyStr s!"could not disable remote signing ({statusCode}): " ++ text.take 400)
  | .notFound name => some (pyStr s!"warehouse {name} not found after registration")
  | _ => none

/-- What a step of the script is. -/
abbrev Script (α : Type) := Session Request Response InitError α

structure Settings where
  icebergRestUrl : String
  icebergWarehouse : String
  s3Bucket : String
  s3Endpoint : String
  s3Region : String
  s3AccessKey : String
  s3SecretKey : String
  deriving DecidableEq, Repr

/-- What the environment sets, and the defaults of the rest. -/
def settings (env : String → Option String) : Except InitError Settings :=
  let resolved : Settings :=
    { icebergRestUrl := (env "ICEBERG_REST_URL").getD "http://iceberg-rest:8181"
      icebergWarehouse := (env "ICEBERG_WAREHOUSE").getD "payments"
      s3Bucket := (env "S3_BUCKET").getD "warehouse"
      s3Endpoint := (env "S3_ENDPOINT").getD "http://minio:9000"
      s3Region := (env "S3_REGION").getD "us-east-1"
      s3AccessKey := (env "S3_ACCESS_KEY").getD ""
      s3SecretKey := (env "S3_SECRET_KEY").getD "" }
  if resolved.s3AccessKey = "" then .error (.unset "S3_ACCESS_KEY")
  else if resolved.s3SecretKey = "" then .error (.unset "S3_SECRET_KEY")
  else .ok resolved

/-- What is registered for a warehouse. -/
structure Payload where
  warehouseName : PyStr
  storageProfile : Json
  storageCredential : Json

def object (members : List (String × Json)) : Json :=
  .object (members.map fun m => (pyStr m.1, m.2))

def text (s : String) : Json := .string (pyStr s)

/-- What a warehouse is created with. -/
def warehousePayload (resolved : Settings) : Payload where
  warehouseName := pyStr resolved.icebergWarehouse
  storageProfile := object
    [("type", text "s3"), ("bucket", text resolved.s3Bucket), ("key-prefix", text "iceberg"),
      ("endpoint", text resolved.s3Endpoint), ("region", text resolved.s3Region),
      ("path-style-access", .bool true), ("flavor", text "s3-compat"),
      ("sts-enabled", .bool false), ("remote-signing-enabled", .bool false)]
  storageCredential := object
    [("type", text "s3"), ("credential-type", text "access-key"),
      ("aws-access-key-id", text resolved.s3AccessKey),
      ("aws-secret-access-key", text resolved.s3SecretKey)]

/-- The body of a registration. -/
def Payload.registration (payload : Payload) : Json :=
  object [("warehouse-name", .string payload.warehouseName),
    ("storage-profile", payload.storageProfile),
    ("storage-credential", payload.storageCredential)]

/-- The body of an update. -/
def Payload.storage (payload : Payload) : Json :=
  object [("storage-profile", payload.storageProfile),
    ("storage-credential", payload.storageCredential)]

/-- Anything but a client or a server error. -/
def Response.ok (r : Response) : Bool := decide ¬(400 ≤ r.statusCode ∧ r.statusCode < 600)

def Response.raiseForStatus (r : Response) : Except InitError Unit :=
  if r.ok then .ok () else .error (.status r.statusCode)

/-- The JSON of an answer, if it has any. -/
def Response.body (r : Response) : Except InitError Json :=
  match r.json with
  | some value => .ok value
  | none => .error .notJson

/-- A member of what should be an object. -/
def get (key : String) (default : Json) : Json → Except InitError Json
  | .object members => .ok ((members.lookup (pyStr key)).getD default)
  | _ => .error .attribute

/-- The items of a `for`. -/
def items : Json → Except InitError (List Json)
  | .array values => .ok values
  | .object members => .ok (members.map fun m => .string m.1)
  | .string s => .ok (s.map fun c => .string [c])
  | _ => .error .notIterable

/-- What an `if` makes of a value. -/
def truthy : Json → Bool
  | .null => false
  | .bool b => b
  | .int n => decide (n ≠ 0)
  | .float (.finite _ first rest _) =>
      decide (first ≠ 0) || rest.any fun c => c.isDigit && c != '0'
  | .float _ => true
  | .string s => !s.isEmpty
  | .array values => !values.isEmpty
  | .object members => !members.isEmpty

/-- Whether a value is the string. -/
def isText (name : PyStr) : Json → Bool
  | .string s => decide (s = name)
  | _ => false

section Requests

variable (baseUrl : PyStr)

def infoRequest : Request := ⟨.get, baseUrl ++ pyStr "/management/v1/info", none⟩

def bootstrapRequest : Request :=
  ⟨.post, baseUrl ++ pyStr "/management/v1/bootstrap",
    some (object [("accept-terms-of-use", .bool true)])⟩

def listRequest : Request := ⟨.get, baseUrl ++ pyStr "/management/v1/warehouse", none⟩

def createRequest (payload : Payload) : Request :=
  ⟨.post, baseUrl ++ pyStr "/management/v1/warehouse", some payload.registration⟩

def storageRequest (whId : PyStr) (payload : Payload) : Request :=
  ⟨.post, baseUrl ++ pyStr "/management/v1/warehouse/" ++ whId ++ pyStr "/storage",
    some payload.storage⟩

/-- What the first request of `bootstrap` says. -/
def readInfo (r : Response) : Except InitError Bool := do
  r.raiseForStatus
  return truthy (← get "bootstrapped" .null (← r.body))

def readBootstrap (r : Response) : Except InitError Bool :=
  if r.statusCode = 400 ∨ r.statusCode = 409 then .ok false
  else do
    r.raiseForStatus
    return true

/-- Bootstrap the server, unless it says that it is. -/
def bootstrap : Script Bool := do
  if ← ask (infoRequest baseUrl) .noAnswer readInfo then return false
  ask (bootstrapRequest baseUrl) .noAnswer readBootstrap

def readWarehouses (r : Response) : Except InitError (List Json) := do
  r.raiseForStatus
  items (← get "warehouses" (.array []) (← r.body))

/-- `any(...)` of `warehouse_exists`. -/
def anyNamed (name : PyStr) : List Json → Except InitError Bool
  | [] => .ok false
  | w :: rest => do
      if isText name (← get "name" .null w) then return true
      anyNamed name rest

/-- Whether the list of warehouses has the name. -/
def warehouseExists (name : PyStr) : Script Bool :=
  ask (listRequest baseUrl) .noAnswer fun r => do anyNamed name (← readWarehouses r)

def readCreate (r : Response) : Except InitError Unit :=
  if r.statusCode = 409 then .ok ()
  else if r.ok then .ok ()
  else .error (.notCreated r.statusCode r.text)

def createWarehouse (payload : Payload) : Script Unit :=
  ask (createRequest baseUrl payload) .noAnswer readCreate

/-- The loop of `warehouse_id`. -/
def idOf (name : PyStr) : List Json → Except InitError Json
  | [] => .ok .null
  | w :: rest => do
      if isText name (← get "name" .null w) then get "id" .null w
      else idOf name rest

/-- The id that the list of warehouses has for the name. -/
def warehouseId (name : PyStr) : Script Json :=
  ask (listRequest baseUrl) .noAnswer fun r => do idOf name (← readWarehouses r)

def readStorage (r : Response) : Except InitError Unit :=
  if r.ok then .ok () else .error (.signingKept r.statusCode r.text)

/-- Put the storage profile of an existing warehouse in place. -/
def disableRemoteSigning (whId : PyStr) (payload : Payload) : Script Unit :=
  ask (storageRequest baseUrl whId payload) .noAnswer readStorage

end Requests

/-- The address of the server without a slash at its end. -/
def baseUrlOf (resolved : Settings) : PyStr :=
  (pyStr resolved.icebergRestUrl).rdropWhile fun c => decide (c = ofChar '/')

/-- The registration in `main`, unless the warehouse is there. -/
def ensureWarehouse (resolved : Settings) : Script Unit := do
  if ← warehouseExists (baseUrlOf resolved) (pyStr resolved.icebergWarehouse) then return ()
  createWarehouse (baseUrlOf resolved) (warehousePayload resolved)

/-- The second step of `main`: find the id of the warehouse and switch signing off. -/
def applyStorage (repr : Json → PyStr) (resolved : Settings) : Script Unit := do
  match ← warehouseId (baseUrlOf resolved) (pyStr resolved.icebergWarehouse) with
  | .null => .raised (.notFound resolved.icebergWarehouse)
  | whId =>
      disableRemoteSigning (baseUrlOf resolved) (Bronze.str repr whId) (warehousePayload resolved)

/-- The whole script, from the settings to the warehouse. -/
def main (repr : Json → PyStr) (env : String → Option String) : Script Unit := do
  let resolved ← ofExcept (settings env)
  let _ ← bootstrap (baseUrlOf resolved)
  let _ ← ensureWarehouse resolved
  applyStorage repr resolved

end PaymentsPlatform.Catalog
