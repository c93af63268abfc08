import HsmRs.Engine.Workflow

/-! # Curvine control

The storage adapter that talks to a Curvine server: one JSON request and one JSON
reply per call, over a transport that may answer anything. The JSON encoding is that
of the library; a reply it cannot read is an error.
-/

namespace HsmRs

structure CurvineCapabilities where
  nativeRecords : Bool
  stableViews : Bool
  conditionalRelease : Bool
  privateRecall : Bool

/-- Version-1 JSON body inside the native protobuf `HsmControl` envelope. -/
inductive ControlRequest
  | inspect (entity : EntityKey)
  | completed (context : OperationContext) (data : DataKey) (action : ManagedAction)
  | prepareArchive (context : OperationContext) (data : DataKey)
  | commitArchive (context : OperationContext) (view : DataView) (receipt : ArchiveReceipt)
  | release (context : OperationContext) (expected : EntityState)
  | prepareRecall (context : OperationContext) (expected : EntityState) (anchor : ArchiveReceipt)
  | commitRecall (context : OperationContext) (target : RecallTarget) (evidence : TransferEvidence)

/-- Version-1 native control result. Unknown failure codes remain uncertain. -/
inductive ControlReply
  | capabilities (capabilities : CurvineCapabilities)
  | entity (state : EntityState)
  | completed (state : Option EntityState)
  | view (view : DataView)
  | «recall» (target : RecallTarget)
  | error (code message : String)

/-- The JSON encoding of requests and replies, with the library's texts for what it cannot
encode or read. -/
class ControlJson where
  toVec : ControlRequest → Except String Bytes
  fromSlice : Bytes → Except String ControlReply

/-- The calls of an engine over Curvine: exchanges on the transport, and those of the backend
and the mover. -/
inductive CurvineCall
  | exchange (payload : Bytes)
  | backend (c : BackendCall)
  | copy (ctx : OperationContext) (source destination : DataEndpoint)

abbrev CurvineCall.Ans : CurvineCall → Type
  | exchange _ => HsmResult Bytes
  | backend c => c.Ans
  | copy _ _ _ => HsmResult TransferEvidence

abbrev curvineSig : Sig := ⟨CurvineCall, CurvineCall.Ans⟩

abbrev Control (α : Type) := ExceptT HsmError (Prog curvineSig) α

def remoteError (code message : String) : HsmError :=
  match code with
  | "unsupported" => .unsupported message
  | "invalid" => .invalid message
  | "conflict" => .conflict message
  | "busy" => .busy message
  | "not_found" => .notFound message
  | "fenced" => .fenced
  | "integrity" => .integrity message
  | _ => .unknown message

def readReply [ControlJson] (response : Bytes) : HsmResult ControlReply :=
  if response.length > 1024 * 1024 then
    .error (.integrity "Curvine control response exceeds limit")
  else match ControlJson.fromSlice response with
    | .error e => .error (.integrity e)
    | .ok (.error code message) => .error (remoteError code message)
    | .ok reply => .ok reply

def exchange [ControlJson] (request : ControlRequest) : Control ControlReply :=
  match ControlJson.toVec request with
  | .error e => throw (.invalid e)
  | .ok payload =>
      if payload.length > 64 * 1024 then
        throw (.invalid "Curvine control request exceeds limit")
      else ExceptT.mk (.op (.exchange payload) fun response => .ret (response.bind readReply))

/-- The receipt names the data, length and digest of the state, and is complete. -/
def validAnchor (state : EntityState) (anchor : ArchiveReceipt) : Bool :=
  anchor.data = state.data && anchor.length = state.length && anchor.digest = state.digest &&
    anchor.key.backend ≠ "" && anchor.key.object ≠ "" && anchor.receiptId ≠ "" &&
    anchor.durabilityProfile ≠ ""

def validResidency (state : EntityState) : Bool :=
  match state.residency with
  | .online => state.anchors.isEmpty
  | .dual | .offline => !state.anchors.isEmpty

def validateState (state : EntityState) : HsmResult Unit :=
  if state.data.entity.storage = "" ∨ state.data.entity.namespace = "" ∨
      state.data.entity.entity = "" ∨ state.data.generation = 0 ∨ state.revision = 0 ∨
      state.digest.algorithm = "" ∨
      (state.digest.value = [] ∧ ¬ (state.digest.algorithm = "unsealed" ∧
        state.residency = .online ∧ state.anchors = [])) ∨
      ¬ state.anchors.all (validAnchor state) ∨ ¬ validResidency state then
    .error (.integrity "invalid Curvine authoritative state")
  else .ok ()

def viewAdapters : List String :=
    ["curvine-view-v1", "curvine-block-view-v1", "curvine-block-view-v2"]

structure CurvineStorage where
  capabilities : CurvineCapabilities

namespace CurvineStorage

variable [ControlJson] (self : CurvineStorage)

def require (supported : Bool) (feature : String) : HsmResult Unit :=
  if supported then .ok () else .error (.unsupported ("Curvine has not enabled " ++ feature))

def state (request : ControlRequest) (expected : DataKey) : Control EntityState := do
  match ← exchange request with
  | .entity state =>
      if state.data = expected then
        validateState state
        return state
      else throw (.integrity "Curvine state reply does not match DataKey")
  | _ => throw (.integrity "Curvine state reply does not match DataKey")

/-- Is a stored outcome one of the action? -/
def matchesAction (action : ManagedAction) (state : EntityState) : Bool :=
  match action with
  | .release => state.residency = .offline
  | .archive key | .«recall» key => state.residency = .dual && state.anchors.any
      fun a => a.key = key

def completed (ctx : OperationContext) (data : DataKey) (action : ManagedAction) :
    Control (Option EntityState) := do
  ctx.validate
  require self.capabilities.nativeRecords "native records and operation outcomes"
  match ← exchange (.completed ctx data action) with
  | .completed none => return none
  | .completed (some state) =>
      if state.data = data then
        validateState state
        if ¬ matchesAction action state then
          throw (.integrity "Curvine stored outcome differs from requested action")
        return some state
      else throw (.integrity "invalid Curvine operation outcome")
  | _ => throw (.integrity "invalid Curvine operation outcome")

def inspect (entity : EntityKey) : Control EntityState := do
  require self.capabilities.nativeRecords "native entity records"
  match ← exchange (.inspect entity) with
  | .entity state =>
      if state.data.entity = entity then
        validateState state
        return state
      else throw (.integrity "invalid Curvine entity identity")
  | _ => throw (.integrity "invalid Curvine entity identity")

def prepareArchive (ctx : OperationContext) (data : DataKey) : Control DataView := do
  ctx.validate
  require self.capabilities.stableViews "persistent stable DataView"
  match ← exchange (.prepareArchive ctx data) with
  | .view view =>
      if view.data = data ∧ view.viewId ≠ "" ∧ view.source.adapter ∈ viewAdapters ∧
          view.source.capability ≠ [] ∧ view.digest.algorithm ≠ "" ∧ view.digest.value ≠ [] then
        return view
      else throw (.integrity "invalid Curvine DataView")
  | _ => throw (.integrity "invalid Curvine DataView")

def commitArchive (ctx : OperationContext) (view : DataView) (receipt : ArchiveReceipt) :
    Control EntityState := do
  ctx.validate
  require (self.capabilities.nativeRecords && self.capabilities.stableViews)
    "conditional archive anchor commit"
  if receipt.data ≠ view.data ∨ receipt.length ≠ view.length ∨ receipt.digest ≠ view.digest then
    throw (.integrity "archive receipt differs from source view")
  let state ← state (.commitArchive ctx view receipt) view.data
  if state.residency ≠ .dual ∨ state.length ≠ view.length ∨ state.digest ≠ view.digest ∨
      receipt ∉ state.anchors then
    throw (.integrity "Curvine did not attach the committed archive anchor")
  return state

def release (ctx : OperationContext) (expected : EntityState) : Control EntityState := do
  ctx.validate
  require self.capabilities.conditionalRelease "protected native Release"
  validateState expected
  let state ← state (.release ctx expected) expected.data
  if state.residency ≠ .offline ∨ state.length ≠ expected.length ∨
      state.digest ≠ expected.digest ∨ state.anchors ≠ expected.anchors ∨
      state.revision < expected.revision then
    throw (.integrity "Curvine Release result changed content or lacks offline residency")
  return state

def prepareRecall (ctx : OperationContext) (expected : EntityState) (anchor : ArchiveReceipt) :
    Control RecallTarget := do
  ctx.validate
  require self.capabilities.privateRecall "original-inode private Recall layout"
  validateState expected
  if anchor.data ≠ expected.data ∨ anchor ∉ expected.anchors then
    throw (.integrity "Recall anchor differs from source state")
  match ← exchange (.prepareRecall ctx expected anchor) with
  | .«recall» target =>
      if target.data = expected.data ∧ target.archive = anchor.key ∧ target.layoutId ≠ "" ∧
          target.destination.adapter = "curvine-recall-v1" ∧
          target.destination.capability ≠ [] then
        return target
      else throw (.integrity "invalid Curvine private Recall target")
  | _ => throw (.integrity "invalid Curvine private Recall target")

def commitRecall (ctx : OperationContext) (target : RecallTarget) (evidence : TransferEvidence) :
    Control EntityState := do
  ctx.validate
  require self.capabilities.privateRecall "conditional CommitRecall"
  let state ← state (.commitRecall ctx target evidence) target.data
  if state.residency ≠ .dual ∨ state.length ≠ evidence.length ∨ state.digest ≠ evidence.digest ∨
      ¬ state.anchors.any (fun a => a.key = target.archive) then
    throw (.integrity "Curvine Recall result does not match verified content and archive")
  return state

def answer : (c : Call) → Prog curvineSig c.Ans
  | .storage (.completed ctx data action) => (self.completed ctx data action).run
  | .storage (.inspect entity) => (self.inspect entity).run
  | .storage (.prepareArchive ctx data) => (self.prepareArchive ctx data).run
  | .storage (.commitArchive ctx view receipt) => (self.commitArchive ctx view receipt).run
  | .storage (.release ctx expected) => (self.release ctx expected).run
  | .storage (.prepareRecall ctx expected anchor) => (self.prepareRecall ctx expected anchor).run
  | .storage (.commitRecall ctx target evidence) => (self.commitRecall ctx target evidence).run
  | .backend c => .op (.backend c) .ret
  | .copy ctx source destination => .op (.copy ctx source destination) .ret

end CurvineStorage

end HsmRs
