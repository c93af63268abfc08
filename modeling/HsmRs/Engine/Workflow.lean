import HsmRs.Core.Managed

/-! # The engine's workflows

Archive, release and recall as programs over calls to a storage, a backend and a
mover, whatever these answer.
-/

namespace HsmRs

inductive StorageCall
  | completed (ctx : OperationContext) (data : DataKey) (action : ManagedAction)
  | inspect (entity : EntityKey)
  | prepareArchive (ctx : OperationContext) (data : DataKey)
  | commitArchive (ctx : OperationContext) (view : DataView) (receipt : ArchiveReceipt)
  | release (ctx : OperationContext) (expected : EntityState)
  | prepareRecall (ctx : OperationContext) (expected : EntityState) (anchor : ArchiveReceipt)
  | commitRecall (ctx : OperationContext) (target : RecallTarget) (evidence : TransferEvidence)

abbrev StorageCall.Ans : StorageCall → Type
  | completed _ _ _ => HsmResult (Option EntityState)
  | prepareArchive _ _ => HsmResult DataView
  | prepareRecall _ _ _ => HsmResult RecallTarget
  | _ => HsmResult EntityState

inductive BackendCall
  | inspect (key : ArchiveKey)
  | prepare (ctx : OperationContext) (key : ArchiveKey) (view : DataView)
  | resumeCommit (ctx : OperationContext) (target : ArchiveTarget) (view : DataView)
  | commit (ctx : OperationContext) (target : ArchiveTarget) (view : DataView)
      (evidence : TransferEvidence)
  | «open» (receipt : ArchiveReceipt)

abbrev BackendCall.Ans : BackendCall → Type
  | inspect _ => HsmResult ArchiveStatus
  | prepare _ _ _ => HsmResult ArchiveTarget
  | resumeCommit _ _ _ => HsmResult (Option ArchiveReceipt)
  | commit _ _ _ _ => HsmResult ArchiveReceipt
  | «open» _ => HsmResult DataEndpoint

inductive Call
  | storage (c : StorageCall)
  | backend (c : BackendCall)
  | copy (ctx : OperationContext) (source destination : DataEndpoint)

abbrev Call.Ans : Call → Type
  | storage c => c.Ans
  | backend c => c.Ans
  | copy _ _ _ => HsmResult TransferEvidence

abbrev engineSig : Sig := ⟨Call, Call.Ans⟩

abbrev Workflow (α : Type) := ExceptT HsmError (Prog engineSig) α

namespace Workflow

def storage (c : StorageCall) : Prog engineSig c.Ans := .op (.storage c) .ret
def backend (c : BackendCall) : Prog engineSig c.Ans := .op (.backend c) .ret

end Workflow

namespace HsmEngine

open Workflow

def checkReceipt (receipt : ArchiveReceipt) (data : DataKey) (key : ArchiveKey) (length : Nat)
    (digest : ContentDigest) : HsmResult Unit :=
  if receipt.key ≠ key ∨ receipt.data ≠ data ∨ receipt.length ≠ length ∨
      receipt.digest ≠ digest ∨ receipt.receiptId = "" ∨ receipt.durabilityProfile = "" then
    .error (.integrity "unbound or incomplete archive receipt")
  else .ok ()

def completed (ctx : OperationContext) (data : DataKey) (action : ManagedAction) :
    Workflow (Option EntityState) := ExceptT.mk (storage (.completed ctx data action))

def inspectEntity (entity : EntityKey) : Workflow EntityState :=
  ExceptT.mk (storage (.inspect entity))

def inspectArchive (key : ArchiveKey) : Workflow ArchiveStatus :=
  ExceptT.mk (backend (.inspect key))

def copy (ctx : OperationContext) (source destination : DataEndpoint) :
    Workflow TransferEvidence := ExceptT.mk (.op (.copy ctx source destination) .ret)

/-- The end of `archive`: a bound receipt is attached to the source. -/
def attach (ctx : OperationContext) (data : DataKey) (key : ArchiveKey) (view : DataView)
    (receipt : ArchiveReceipt) : Workflow EntityState := do
  checkReceipt receipt data key view.length view.digest
  ExceptT.mk (storage (.commitArchive ctx view receipt))

/-- The branch of `archive` for a key that is not committed: resume a sealed attempt, or
copy and commit. -/
def upload (ctx : OperationContext) (key : ArchiveKey) (view : DataView) :
    Workflow ArchiveReceipt := do
  let target ← ExceptT.mk (backend (.prepare ctx key view))
  match ← ExceptT.mk (backend (.resumeCommit ctx target view)) with
  | some receipt => return receipt
  | none =>
      let evidence ← copy ctx view.source target.destination
      if evidence.length ≠ view.length ∨ evidence.digest ≠ view.digest then
        throw (.integrity "archive transfer differs from pinned source")
      ExceptT.mk (backend (.commit ctx target view evidence))

/-- Archive exact content. On error, the source protection is preserved. -/
def archive (ctx : OperationContext) (data : DataKey) (key : ArchiveKey) :
    Workflow EntityState := do
  ctx.validate
  match ← completed ctx data (.archive key) with
  | some result => return result
  | none =>
      let view ← ExceptT.mk (storage (.prepareArchive ctx data))
      match ← inspectArchive key with
      | .committed receipt => attach ctx data key view receipt
      | .absent =>
          let receipt ← upload ctx key view
          attach ctx data key view receipt
      | .pending | .unknown => throw (.unknown "backend has no confirmed commit result")

/-- The loop of `release` over the anchors: is one of them verified? -/
def verifyAnchors (expected : EntityState) : List ArchiveReceipt → Workflow Bool
  | [] => return false
  | anchor :: rest => do
      checkReceipt anchor expected.data anchor.key expected.length expected.digest
      match ← inspectArchive anchor.key with
      | .committed actual => if actual = anchor then return true else verifyAnchors expected rest
      | .pending | .unknown => throw (.unknown "release recovery source is uncertain")
      | .absent => verifyAnchors expected rest

/-- Release is a conditional storage effect; it never invokes the byte mover. -/
def release (ctx : OperationContext) (expected : EntityState) : Workflow EntityState := do
  ctx.validate
  match ← completed ctx expected.data .release with
  | some result => return result
  | none =>
      if (← inspectEntity expected.data.entity) ≠ expected then
        throw (.conflict "release observation is stale")
      if expected.anchors = [] then throw (.conflict "no committed recovery anchor")
      if ← verifyAnchors expected expected.anchors then
        ExceptT.mk (storage (.release ctx expected))
      else throw (.integrity "no verified committed recovery source")

/-- Recall selected immutable archive into private storage, then publish. -/
def «recall» (ctx : OperationContext) (expected : EntityState) (key : ArchiveKey) :
    Workflow EntityState := do
  ctx.validate
  match ← completed ctx expected.data (.«recall» key) with
  | some result => return result
  | none =>
      if expected.residency ≠ .offline then
        throw (.conflict "recall requires an offline entity")
      match expected.anchors.find? (fun a => a.key = key) with
      | none => throw (.notFound "selected recovery anchor")
      | some anchor =>
          checkReceipt anchor expected.data key expected.length expected.digest
          match ← inspectArchive key with
          | .committed actual =>
              if actual ≠ anchor then
                throw (.integrity "archive no longer matches source anchor")
          | .pending | .unknown => throw (.unknown "archive lookup is uncertain")
          | .absent => throw (.integrity "archive no longer matches source anchor")
          let target ← ExceptT.mk (storage (.prepareRecall ctx expected anchor))
          let source ← ExceptT.mk (backend (.open anchor))
          let evidence ← copy ctx source target.destination
          if evidence.length ≠ expected.length ∨ evidence.digest ≠ expected.digest then
            throw (.integrity "recall content differs from anchor")
          ExceptT.mk (storage (.commitRecall ctx target evidence))

end HsmEngine

end HsmRs
