import ResumableQuery.Plan.Basic

/-!
# Pages

A caller may read the rows of a plan a page at a time.  Each page is an execution with limits and a
budget of its own, and goes on from the continuation at which the page before it ended, which the
caller may have kept as text in between.  After the page that ends because the source ran dry there
is no other.
-/

namespace ResumableQuery

namespace Plan

/-- The rows of one execution of a plan, the reason of its end and the continuation there. -/
def page (plan : Plan) (records : RecordStore) (bindings : Bindings) (p : ScanProperties)
    (c : Continuation) (w : World) :
    World × Except CursorError (List Record × StopReason × Continuation) :=
  let (w, budget) := w.newBudget p.scanLimit
  match plan.execute ⟨records, bindings, budget, w⟩ c p with
  | .ok rows => (Handle.new rows).collect w
  | .error e => (w, .error e)

/-- A request for a page. -/
structure Request where
  properties : ScanProperties
  /-- Whether the continuation of the page is kept as text until the next one. -/
  asText : Bool
  deriving DecidableEq, Repr

/-- The continuation that the next request gets. -/
def Request.handOver (r : Request) (t : Continuation) : Except CursorError Continuation :=
  if r.asText then (Continuation.ofBase64 t.toBase64).mapError .badContinuation else .ok t

/-- The rows of page after page, and the continuation from which to go on, if the last page did not
run dry. -/
def pages (plan : Plan) (records : RecordStore) (bindings : Bindings) :
    List Request → Continuation → World →
    World × Except CursorError (List (List Record) × Option Continuation)
  | [], c, w => (w, .ok ([], some c))
  | request :: requests, c, w =>
    match plan.page records bindings request.properties c w with
    | (w, .error e) => (w, .error e)
    | (w, .ok (rows, reason, t)) =>
      if reason = .sourceExhausted then (w, .ok ([rows], none))
      else
        match request.handOver t with
        | .error e => (w, .error e)
        | .ok t =>
          match pages plan records bindings requests t w with
          | (w, .ok (more, last)) => (w, .ok (rows :: more, last))
          | (w, .error e) => (w, .error e)

/-- The worlds and continuations that a caller comes to by reading pages. -/
inductive Reached (plan : Plan) (records : RecordStore) (bindings : Bindings) (w₀ : World) :
    World → Continuation → Prop
  | start : Reached plan records bindings w₀ w₀ .start
  | page {w c p w' rows reason t} : Reached plan records bindings w₀ w c →
      plan.page records bindings p c w = (w', .ok (rows, reason, t)) →
      Reached plan records bindings w₀ w' t

end Plan

end ResumableQuery
