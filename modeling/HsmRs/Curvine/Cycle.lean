import HsmRs.Core.Lifecycle
import HsmRs.Lib.Loop
import Mathlib

/-! # The worker cycle

One pass over the source-owned work of a lane, and the cycle of the background lane: what is
ready, the seals that have been interrupted, the scheduled scans, and what these have made
ready. The source may answer anything.
-/

namespace HsmRs

/-- Independent execution capacity, backed by source-owned work index ranges. -/
inductive WorkClass | «recall» | background
  deriving DecidableEq

namespace WorkClass

def asStr : WorkClass → String
  | «recall» => "recall"
  | background => "background"

/-- Verify the source obeyed the requested queue boundary. -/
def accepts (self : WorkClass) (action : ManagedAction) : Bool :=
  (match action with
    | .«recall» _ => true
    | _ => false) = (self = «recall» : Bool)

end WorkClass

/-- What a cycle asks of the storage, the engine and the terminal. `token` is a fresh operation
ID, `spin` a loop that goes on. -/
inductive CycleOp
  | token
  | gcBatch
  | policies (ctx : OperationContext) (after : Option String) (limit : Nat)
  | pendingSeals
  | sealOrdinary (data : DataKey)
  | scanScheduled (ctx : OperationContext) (id : String) (limit : Nat)
  | readyIntents (ctx : OperationContext) (after : Option String) (limit : Nat)
  | readyIntentsIn (ctx : OperationContext) («class» : WorkClass)
      (after : Option String) (limit : Nat)
  | runIntent (ctx : OperationContext) (id owner : String)
  | print (result : LifecycleIntent)
  | spin

abbrev CycleOp.Ans : CycleOp → Type
  | token => String
  | gcBatch => HsmResult Nat
  | policies _ _ _ => HsmResult (LifecyclePage LifecyclePolicy)
  | pendingSeals => HsmResult (List DataKey)
  | sealOrdinary _ | print _ => HsmResult Unit
  | scanScheduled _ _ _ => HsmResult ScanBatch
  | readyIntents _ _ _ | readyIntentsIn _ _ _ _ => HsmResult (LifecyclePage LifecycleIntent)
  | runIntent _ _ _ => HsmResult LifecycleIntent
  | spin => Empty

abbrev cycleSig : Sig := ⟨CycleOp, CycleOp.Ans⟩

abbrev Cycle (α : Type) := ExceptT HsmError (Prog cycleSig) α

/-- The policies by their IDs, in the order of these. -/
abbrev Definitions := List (String × LifecyclePolicy)

def Definitions.insert (policy : LifecyclePolicy) : Definitions → Definitions
  | [] => [(policy.id, policy)]
  | (id, p) :: rest =>
      if policy.id < id then (policy.id, policy) :: (id, p) :: rest
      else if policy.id = id then (id, policy) :: rest
      else (id, p) :: insert policy rest

structure CycleReport where
  lane : String
  admitted : Nat
  executed : Nat
  failed : Nat
  retry : Nat

/-- A program that works on a shared report: an error comes with the report as it leaves it. -/
abbrev Reporting (α : Type) := ExceptT (HsmError × CycleReport) (Prog cycleSig) α

namespace Cycle

open Prog (call stuck)

variable {α : Type}

def token : Cycle String := call .token .ok
def gcBatch : Cycle (HsmResult Nat) := call .gcBatch .ok
def policies (ctx : OperationContext) (after : Option String) (limit : Nat) :
    Cycle (LifecyclePage LifecyclePolicy) := call (.policies ctx after limit) fun x => x
def pendingSeals : Cycle (List DataKey) := call .pendingSeals fun x => x
def sealOrdinary (data : DataKey) : Cycle Unit := call (.sealOrdinary data) fun x => x
def scanScheduled (ctx : OperationContext) (id : String) (limit : Nat) : Cycle ScanBatch :=
  call (.scanScheduled ctx id limit) fun x => x
def readyIntents (ctx : OperationContext) (after : Option String) (limit : Nat) :
    Cycle (LifecyclePage LifecycleIntent) := call (.readyIntents ctx after limit) fun x => x
def readyIntentsIn (ctx : OperationContext) («class» : WorkClass) (after : Option String)
    (limit : Nat) : Cycle (LifecyclePage LifecycleIntent) :=
  call (.readyIntentsIn ctx «class» after limit) fun x => x
/-- The result of `run_intent` itself: an error does not end the pass by itself. -/
def runIntent (ctx : OperationContext) (id owner : String) : Cycle (HsmResult LifecycleIntent) :=
  call (.runIntent ctx id owner) .ok
def print (result : LifecycleIntent) : Cycle Unit := call (.print result) fun x => x

def context (epoch : Nat) : Cycle OperationContext := do return ⟨← token, epoch, 1⟩

/-- `?` on what leaves the report alone. -/
def leaving (report : CycleReport) (p : Cycle α) : Reporting α :=
  ExceptT.mk (p.run >>= fun r => .ret (r.mapError (·, report)))

/-- The result without the report of an error, which goes out of scope. -/
def outcome (p : Reporting α) : Cycle α :=
    ExceptT.mk (p.run >>= fun r => .ret (r.mapError Prod.fst))

section

variable (fuel : Nat) (definitions : Definitions) (backendId : String) (epoch : Nat)
  (owner : String) (maxActions : Nat) («class» : Option WorkClass)

def belongs (intent : LifecycleIntent) : Bool :=
  match intent.action with
  | .«recall» key | .archive key => key.backend = backendId
  | .release => (definitions.lookup intent.policy).any fun p => p.backend = backendId

def eligible (intent : LifecycleIntent) : Bool :=
  intent.status = .ready ||
    intent.status = .running && intent.claim.any fun c => decide (c.epoch < epoch)

def executeItem (report : CycleReport) (intent : LifecycleIntent) :
    Reporting (CycleReport ⊕ CycleReport) := do
  if «class».any (fun c => ¬ c.accepts intent.action) then
    throw (.integrity "source returned work from another execution class", report)
  if ¬ belongs definitions backendId intent then return .inl report
  if ¬ eligible epoch intent then return .inl report
  let ctx ← leaving report (context epoch)
  match ← leaving report (runIntent ctx intent.id owner) with
  | .ok result =>
      let report := { report with
        failed := report.failed + if result.status = .failed then 1 else 0
        retry := report.retry + if result.status = .ready then 1 else 0 }
      leaving report (print result)
      let report := { report with executed := report.executed + 1 }
      if report.executed ≥ maxActions then return .inr report
      return .inl report
  | .error (.busy _) | .error (.conflict _) => return .inl report
  | .error e => throw (e, report)

def executeItems : CycleReport → List LifecycleIntent → Reporting (CycleReport ⊕ CycleReport)
  | report, [] => return .inl report
  | report, intent :: items => do
      match ← executeItem definitions backendId epoch owner maxActions «class» report intent with
      | .inl report => executeItems report items
      | .inr report => return .inr report

def listReady (after : Option String) : Cycle (LifecyclePage LifecycleIntent) := do
  match «class» with
  | some «class» => readyIntentsIn (← context epoch) «class» after 16
  | none => readyIntents (← context epoch) after 16

def executePage (state : Option String × CycleReport) :
    Reporting ((Option String × CycleReport) ⊕ CycleReport) := do
  let page ← leaving state.2 (listReady epoch «class» state.1)
  match ← executeItems definitions backendId epoch owner maxActions «class» state.2 page.items with
  | .inl report =>
      if page.next.isNone then return .inr report
      return .inl (page.next, report)
  | .inr report => return .inr report

def executeReady (report : CycleReport) : Reporting CycleReport := do
  if report.executed ≥ maxActions then return report
  Prog.loop (stuck .spin id) (executePage definitions backendId epoch owner maxActions «class»)
    fuel (none, report)

end

section

variable (fuel : Nat) (epoch : Nat)

def definitionsPage (state : Option String × Definitions) :
    Cycle ((Option String × Definitions) ⊕ Definitions) := do
  let page ← policies (← context epoch) state.1 16
  let result := page.items.foldl (fun result policy => result.insert policy) state.2
  if page.next.isNone then return .inr result
  return .inl (page.next, result)

def definitions : Cycle Definitions :=
  Prog.loop (stuck .spin id) (definitionsPage epoch) fuel (none, [])

def sealAll : List DataKey → Cycle Unit
  | [] => return
  | data :: rest => do
      sealOrdinary data
      sealAll rest

/-- One request of a scheduled scan. The count of examined records is a machine word. -/
def scanBatch (policy : LifecyclePolicy) (state : Nat × CycleReport) :
    Reporting ((Nat × CycleReport) ⊕ CycleReport) := do
  let ctx ← leaving state.2 (context epoch)
  let batch ← leaving state.2
    (scanScheduled ctx policy.id (min 256 (policy.selection.scanBudget - state.1)))
  let report := { state.2 with admitted := state.2.admitted + batch.admitted.length }
  let examined := (state.1 + batch.examined) % 2 ^ 64
  leaving report (sealAll batch.toSeal)
  if batch.next.isNone ∨ examined ≥ policy.selection.scanBudget then return .inr report
  return .inl (examined, report)

def scanPolicy (policy : LifecyclePolicy) (report : CycleReport) : Reporting CycleReport :=
  Prog.loop (stuck .spin id) (scanBatch epoch policy) fuel (0, report)

def scanPolicies : List LifecyclePolicy → CycleReport → Reporting CycleReport
  | [], report => return report
  | policy :: rest, report => do scanPolicies rest (← scanPolicy fuel epoch policy report)

end

section

variable (fuel : Nat) (backendId : String) (epoch : Nat) (owner : String) (maxActions : Nat)

def sealPending (definitions : Definitions) («class» : Option WorkClass) :
    List DataKey → CycleReport → Reporting CycleReport
  | [], report => return report
  | data :: rest, report => do
      leaving report (sealOrdinary data)
      sealPending definitions «class» rest
        (← executeReady fuel definitions backendId epoch owner maxActions «class» report)

def emptyReport (lane : String) : CycleReport := ⟨lane, 0, 0, 0, 0⟩

/-- `cycle`, with the report that its passes share. -/
def sharedCycle («class» : Option WorkClass) : Reporting CycleReport := do
  let report := emptyReport («class».elim "all" WorkClass.asStr)
  let _ ← leaving report gcBatch
  let definitions ← leaving report (definitions fuel epoch)
  let report ← executeReady fuel definitions backendId epoch owner maxActions «class» report
  let seals ← leaving report pendingSeals
  let report ← sealPending fuel backendId epoch owner maxActions definitions «class» seals report
  let selected := (definitions.map Prod.snd).filter fun p => p.enabled && p.backend = backendId
  let report ← scanPolicies fuel epoch selected report
  executeReady fuel definitions backendId epoch owner maxActions «class» report

def cycle («class» : Option WorkClass) : Cycle CycleReport :=
  outcome (sharedCycle fuel backendId epoch owner maxActions «class»)

/-- One turn of `worker_lane`, with the report that its passes share. -/
def sharedTurn («class» : WorkClass) : Reporting CycleReport :=
  if «class» = .background then sharedCycle fuel backendId epoch owner maxActions (some «class»)
  else executeReady fuel [] backendId epoch owner maxActions (some «class»)
    (emptyReport «class».asStr)

def laneTurn («class» : WorkClass) : Cycle CycleReport :=
  outcome (sharedTurn fuel backendId epoch owner maxActions «class»)

end

end Cycle

end HsmRs
