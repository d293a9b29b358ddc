/-
The handlers of record and namespace requests (`server.rs`).

A handler takes the engine's lock, makes its calls and builds the response.  A call that fails
with an error becomes an error response; one that panics ends the handler, and no later
request gets the lock.

* `handle` — the response to a request;
* `serveAll` — requests one after the other, where the worker processes what was submitted
  before the next one.
-/
import Uldb.Frames
import Uldb.Lib.Refinement
import Uldb.Reference

namespace Uldb

open Fallible

/-- A request for records, or for the list of namespaces. -/
inductive Request where
  | put (key : Str) (value : Bytes)
  | get (key : Str)
  | delete (key : Str)
  | scan (start stop : Str) (limit : UInt32)
  | putBatch (records : List (Str × Bytes))
  | rangeDelete (start stop : Str)
  | getBatch (keys : List Str)
  | compact
  | nsCreate (repoUrl commitSha description : Str)
  | nsList
  | nsDelete (namespaceId : UInt64)

namespace UmpHandler

/-! ### Responses -/

/-- `error_response` of a text. -/
def errorText (code : UInt8) (msg : Bytes) : Response :=
  .single .error (enc [u8Field code, u32Field 0, stringField msg])

theorem errorResponse_eq (code : UInt8) (msg : String) :
    errorResponse code msg = errorText code msg.toUTF8.toList := rfl

/-- The fields of a row that has no scores. -/
def recordRow (key value : Bytes) (rank : ℕ) : Bytes :=
  enc [stringField key, bytesField value, f64Zero, f64Zero, f64Zero, f64Zero, f64Zero,
    u32Field rank]

/-- Rows between their number and what the end tells. -/
def rowsResponse (declared : ℕ) (rows : List Bytes) (found : ℕ) : Response :=
  .stream ([(.resultStart, enc [u32Field declared])]
    ++ rows.map (fun row => (.resultRow, row))
    ++ [(.resultEnd, enc [u32Field found, u32Field 0])])

def getResponse (key : Str) : Option Bytes → Response
  | some value => .single .resultRow (recordRow key.1 value 0)
  | none => errorText 0x40 ("key not found: ".toUTF8.toList ++ key.1)

def scanResponse (limit : UInt32) (results : List (Bytes × Bytes)) : Response :=
  let truncated := results.take limit.toNat
  rowsResponse truncated.length
    (truncated.zipIdx.map fun row => recordRow (displayKey row.1.1) row.1.2 row.2)
    truncated.length

/-- The number of rows that is told at the end counts the values that are not empty. -/
def getBatchResponse (keys : List Str) (values : List Bytes) : Response :=
  rowsResponse keys.length
    ((keys.zip values).zipIdx.map fun row => recordRow row.1.1.1 row.1.2 row.2)
    (values.filter fun value => !value.isEmpty).length

def nsListResponse (results : List (Bytes × Bytes)) : Response :=
  rowsResponse results.length
    (results.zipIdx.map fun row =>
      enc [stringField (fromUtf8Lossy row.1.1), bytesField row.1.2, u32Field row.2])
    results.length

/-! ### Handlers -/

/-- A call of the engine, whose error becomes the response. -/
def answered {α : Type} (x : EngineM α) (response : α → Response) (failed : String) :
    EngineM Response := fun e =>
  match x e with
  | .ok a e => .ok (response a) e
  | .error (.error msg) e => .ok (errorResponse 0xFF (failed ++ msg)) e
  | .error .panic e => .error .panic e

theorem answered_eq_ok {α : Type} {x : EngineM α} {response : α → Response} {failed : String}
    {e e' : Engine} {r : Response} : answered x response failed e = .ok r e' ↔
      (∃ a, x e = .ok a e' ∧ r = response a) ∨
        ∃ msg, x e = .error (.error msg) e' ∧ r = errorResponse 0xFF (failed ++ msg) := by
  rw [answered]
  cases x e with
  | ok a e₁ => simp [eq_comm, and_comm]
  | error failure e₁ => cases failure <;> simp [eq_comm, and_comm]

/-- Read under the engine's lock. -/
def getLocked (key : Bytes) : EngineM (Option Bytes) := fun e => .ok (e.get key).1 (e.get key).2

/-- Read keys one after the other; a missing value is empty. -/
def getAll : List Bytes → EngineM (List Bytes)
  | [] => pure []
  | key :: keys => do
    let value ← getLocked key
    let values ← getAll keys
    pure (value.getD [] :: values)

/-- `"__ns__::"` -/
def nsPrefix : Bytes := [95, 95, 110, 115, 95, 95, 58, 58]

def nsKey (repoUrl : Str) : Bytes := nsPrefix ++ repoUrl.1

/-- `"{commit_sha}|{description}"` -/
def nsValue (commitSha description : Str) : Bytes := commitSha.1 ++ 124 :: description.1

def handleGet (key : Str) : EngineM Response := do
  let value ← getLocked (scopeKey 0 key.1)
  pure (getResponse key value)

def handleGetBatch (keys : List Str) : EngineM Response := do
  let values ← getAll (keys.map fun key => scopeKey 0 key.1)
  pure (getBatchResponse keys values)

def handleNsList : EngineM Response := do
  let results ← scanLocked nsPrefix (nsPrefix ++ [0xFF])
  pure (nsListResponse results)

theorem handleScan_eq (start stop : Str) (limit : UInt32) :
    handleScan start stop limit = (do
      let results ← scanLocked (scopeKey 0 start.1) (scopeKey 0 stop.1)
      pure (scanResponse limit results)) := by
  simp only [handleScan, scanResponse, rowsResponse, List.map_map]
  rfl

variable [Codec]

def handlePut (key : Str) (value : Bytes) : EngineM Response :=
  answered (Engine.put (scopeKey 0 key.1) value) (fun _ => resultEndResponse 1 0) "put failed: "

def handleDelete (key : Str) : EngineM Response :=
  answered (Engine.delete (scopeKey 0 key.1)) (fun _ => resultEndResponse 1 0) "delete failed: "

/-- The records of a batch, in namespace 0. -/
def scopedRecords (records : List (Str × Bytes)) : List (Bytes × Bytes) :=
  records.map fun record => (scopeKey 0 record.1.1, record.2)

def handlePutBatch (records : List (Str × Bytes)) : EngineM Response :=
  answered (Engine.putBatch (scopedRecords records))
    (fun _ => resultEndResponse records.length 0) "batch put failed: "

def handleCompact : EngineM Response :=
  answered Engine.flush (fun _ => resultEndResponse 0 0) "compact failed: "

def handleNsCreate (repoUrl commitSha description : Str) : EngineM Response :=
  answered (Engine.put (nsKey repoUrl) (nsValue commitSha description))
    (fun _ => resultEndResponse 1 0) "ns create failed: "

/-- A range delete is a scan, and then the deletes as one call. -/
theorem handleRangeDelete_eq (start stop : Str) :
    handleRangeDelete start stop = (do
      let results ← scanLocked (scopeKey 0 start.1) (scopeKey 0 stop.1)
      answered (forM (results.map Prod.fst) Engine.delete)
        (fun _ => resultEndResponse (results.map Prod.fst).length 0) "range delete failed: ") := by
  rw [handleRangeDelete]
  refine congrArg _ (funext fun results => funext fun e => ?_)
  rw [answered]
  cases (forM (results.map Prod.fst) Engine.delete : EngineM Unit) e with
  | ok _ e' => rfl
  | error failure e' => cases failure <;> rfl

/-- The response to a request. -/
def handle : Request → EngineM Response
  | .put key value => handlePut key value
  | .get key => handleGet key
  | .delete key => handleDelete key
  | .scan start stop limit => handleScan start stop limit
  | .putBatch records => handlePutBatch records
  | .rangeDelete start stop => handleRangeDelete start stop
  | .getBatch keys => handleGetBatch keys
  | .compact => handleCompact
  | .nsCreate repoUrl commitSha description => handleNsCreate repoUrl commitSha description
  | .nsList => handleNsList
  | .nsDelete namespaceId => handleNsDelete namespaceId

/-- A request, after which the worker processes what was submitted.  After a panic nobody gets the
lock. -/
def serveOne (add : CompactionManager → Page → CompactionManager) (e : Engine)
    (request : Request) : Option (Response × Engine) :=
  match handle request e with
  | .ok response e' => some (response, e'.settle add)
  | .error _ _ => none

/-- Requests one after the other, with their responses. -/
def serveAll (add : CompactionManager → Page → CompactionManager) :
    Engine → List Request → Option (List Response × Engine) :=
  Refinement.serve (serveOne add)

theorem serveOne_eq_some {add : CompactionManager → Page → CompactionManager} {e e' : Engine}
    {request : Request} {response : Response} : serveOne add e request = some (response, e') ↔
      ∃ e₁, handle request e = .ok response e₁ ∧ e' = e₁.settle add := by
  rw [serveOne]
  cases handle request e with
  | ok response₁ e₁ => simp [eq_comm, and_comm]
  | error failure e₁ => simp

end UmpHandler

end Uldb
