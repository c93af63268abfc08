import HsmRs.Local.Util

/-! # Local storage

A private managed namespace whose metadata is one JSON file. A handle carries the
cached metadata and the flag that a failed commit sets; every call takes the
handle and gives it back.
-/

namespace HsmRs

def okOr {α : Type} (o : Option α) (e : HsmError) : HsmResult α :=
  match o with
  | some a => .ok a
  | none => .error e

/-- Values a step can return and have replayed. -/
class Recorded (α : Type) where
  toValue : α → StepValue
  fromValue : StepValue → Except String α
  fromValue_toValue : ∀ a, fromValue (toValue a) = .ok a

instance : Recorded DataView where
  toValue := .view
  fromValue
    | .view v => .ok v
    | _ => .error "missing field view_id"
  fromValue_toValue _ := rfl

instance : Recorded EntityState where
  toValue := .state
  fromValue
    | .state s => .ok s
    | _ => .error "missing field revision"
  fromValue_toValue _ := rfl

instance : Recorded RecallTarget where
  toValue := .target
  fromValue
    | .target t => .ok t
    | _ => .error "missing field layout_id"
  fromValue_toValue _ := rfl

variable {κ α : Type} [DecidableEq κ]

namespace State

def new (storageId ns : String) : State κ where
  schema := 1
  storageId := storageId
  «namespace» := ns
  entities := ∅
  views := ∅
  recalls := ∅
  steps := ∅
  completed := ∅
  gc := []

omit [DecidableEq κ] in
def validateKey (self : State κ) (entity : EntityKey) : HsmResult Unit :=
  if entity.storage ≠ self.storageId ∨ entity.namespace ≠ self.namespace ∨
      entity.entity = "" then
    .error (.notFound "entity belongs to a different namespace")
  else .ok ()

omit [DecidableEq κ] in
def entity (self : State κ) (data : DataKey) : HsmResult Entity := do
  self.validateKey data.entity
  let entity ← okOr (self.entities.lookup data.entity.entity) (.notFound "entity")
  if entity.public.data ≠ data then throw (.conflict "content generation changed")
  return entity

omit [DecidableEq κ] in
def finish (self : State κ) (ctx : OperationContext) (data : DataKey) (action : ManagedAction)
    (state : EntityState) : HsmResult (State κ) :=
  let next := { self with
    completed := self.completed.insert ctx.operationId ⟨ctx, data, action, state⟩ }
  match self.completed.lookup ctx.operationId with
  | some old =>
      if old.context ≠ ctx ∨ old.data ≠ data ∨ old.action ≠ action then
        .error (.conflict "operation ID reused with different input")
      else .ok next
  | none => .ok next

def record (self : State κ) (stepKey : κ) (saved : SavedStep κ) : State κ :=
  { self with steps := self.steps.insert stepKey saved }

end State

structure LocalStorage (κ : Type) where
  root : Dir
  state : State κ
  poisoned : Bool

def layoutsDir (root : Dir) : Dir := "layouts" :: root

def layoutDir (root : Dir) (layout : String) : Dir := layout :: layoutsDir root

namespace LocalStorage

omit [DecidableEq κ] in
def healthy (self : LocalStorage κ) : HsmResult Unit :=
  if self.poisoned then
    .error (.unknown "reopen local storage after uncertain metadata commit")
  else .ok ()

omit [DecidableEq κ] in
theorem healthy_eq_ok {self : LocalStorage κ} : self.healthy = .ok () ↔ self.poisoned = false := by
  unfold healthy
  cases self.poisoned <;> simp

def qualify (ctx : OperationContext) : HsmResult Unit := do
  ctx.validate
  if ctx.controllerEpoch ≠ 1 ∨ ctx.attemptEpoch ≠ 1 then
    throw (.unsupported "local reference Adapter supports epoch 1 only")

omit [DecidableEq κ] in
/-- Replace the metadata file; a failure poisons the handle. -/
def persist (self : LocalStorage κ) (state : State κ) :
    Prog (LocalSig κ) (HsmResult Unit × LocalStorage κ) := do
  match ← (writeJson self.root .state (.state state)).run with
  | .ok () => return (.ok (), self)
  | .error e => return (.error e, { self with poisoned := true })

omit [DecidableEq κ] in
/-- Persist new metadata and, once that went well, cache it and give the answer. -/
def adopt (self : LocalStorage κ) (next : State κ) (answer : HsmResult α) :
    Prog (LocalSig κ) (HsmResult α × LocalStorage κ) := do
  match ← self.persist next with
  | (.ok (), self) => return (answer, { self with state := next })
  | (.error e, self) => return (.error e, self)

/-- The answer of a step that has been recorded. -/
def replay [Recorded α] (saved : SavedStep κ) (fingerprint : κ) : HsmResult α :=
  if saved.fingerprint ≠ fingerprint then
    .error (.conflict "operation step reused with different inputs")
  else match saved.result with
    | .ok value => (Recorded.fromValue value).mapError .integrity
    | .error failure => .error failure.intoError

def step [KeyHash κ] [Recorded α] (self : LocalStorage κ) (ctx : OperationContext)
    (request : StepRequest) (effect : State κ → Io κ (α × State κ)) :
    Prog (LocalSig κ) (HsmResult α × LocalStorage κ) :=
  match qualify ctx, self.healthy with
  | .error e, _ => return (.error e, self)
  | _, .error e => return (.error e, self)
  | .ok (), .ok () =>
    let stepKey := key (.step ctx request.name)
    let fingerprint : κ := key (.request ctx request)
    match self.state.steps.lookup stepKey with
    | some saved => return (replay saved fingerprint, self)
    | none => do
      match ← (effect self.state).run with
      | .ok (result, next) =>
          let saved := ⟨fingerprint, .ok (Recorded.toValue result)⟩
          self.adopt (next.record stepKey saved) (.ok result)
      | .error error =>
          match SavedFailure.capture error with
          | none => return (.error error, self)
          | some failure =>
              -- failed conditions never persist partially mutated metadata
              self.adopt (self.state.record stepKey ⟨fingerprint, .error failure⟩) (.error error)

end LocalStorage

/-! ## The metadata part of the effects -/

namespace State

/-- `commit_archive` once the source session is locked. -/
def attachAnchor (self : State κ) (ctx : OperationContext) (view : DataView)
    (receipt : ArchiveReceipt) : HsmResult (EntityState × State κ) := do
  let _ ← self.entity view.data
  if receipt.data ≠ view.data ∨ receipt.length ≠ view.length ∨ receipt.digest ≠ view.digest ∨
      receipt.receiptId = "" ∨ receipt.durabilityProfile ≠ "local-fsync-v1" then
    throw (.integrity "invalid archive anchor")
  let entity ← okOr (self.entities.lookup view.data.entity.entity) (.notFound "entity")
  if ∃ a ∈ entity.public.anchors, a.key = receipt.key ∧ a ≠ receipt then
    throw (.conflict "different receipt for immutable key")
  let anchors := if receipt ∈ entity.public.anchors then entity.public.anchors
    else entity.public.anchors ++ [receipt]
  let result := { entity.public with
    anchors, residency := .dual, revision := entity.public.revision + 1 }
  let next := { self with
    entities := self.entities.insert view.data.entity.entity { entity with «public» := result }
    views := self.views.erase view.viewId }
  let next ← next.finish ctx view.data (.archive receipt.key) result
  return (result, next)

/-- The checks of `release` before it locks the published layout, which it returns. -/
def releasable (self : State κ) (expected : EntityState) : HsmResult String := do
  let entity ← self.entity expected.data
  if entity.public ≠ expected ∨ expected.anchors = [] then
    throw (.conflict "stale state or no committed anchor")
  if self.views.Any (fun v => v.view.data = expected.data) ∨
      self.recalls.Any (fun r => r.target.data = expected.data) then
    throw (.busy "active source/recall reference")
  okOr entity.published (.conflict "already offline")

/-- `release` once the published layout is locked. -/
def detach (self : State κ) (ctx : OperationContext) (expected : EntityState)
    (layout : String) : HsmResult (EntityState × State κ) := do
  let entity ← okOr (self.entities.lookup expected.data.entity.entity) (.notFound "entity")
  let result := { entity.public with
    residency := .offline, revision := entity.public.revision + 1 }
  let next := { self with
    entities := self.entities.insert expected.data.entity.entity ⟨result, none⟩
    gc := self.gc ++ [layout] }
  let next ← next.finish ctx expected.data .release result
  return (result, next)

/-- The checks of `prepare_recall` before it allocates the private layout. -/
def recallable (self : State κ) (expected : EntityState) (anchor : ArchiveReceipt) :
    HsmResult Unit := do
  let entity ← self.entity expected.data
  if entity.public ≠ expected ∨ entity.published.isSome ∨ anchor ∉ entity.public.anchors then
    throw (.conflict "stale offline state or anchor")
  if self.recalls.Any (fun r => r.target.data = expected.data) then
    throw (.busy "Recall already active")

/-- `commit_recall` between reading the layout back and sealing it. -/
def sealable (self : State κ) (owner : RecallOwner) (target : RecallTarget)
    (evidence : TransferEvidence) (length : Nat) (digest : ContentDigest) : HsmResult Unit := do
  let entity ← self.entity target.data
  if entity.published.isSome ∨ owner.anchor ∉ entity.public.anchors then
    throw (.conflict "Recall target or anchor changed")
  if evidence.length ≠ length ∨ evidence.digest ≠ digest ∨ length ≠ entity.public.length ∨
      digest ≠ entity.public.digest then
    throw (.integrity "Recall seal mismatch")

/-- `commit_recall` once the layout is sealed. -/
def publish (self : State κ) (ctx : OperationContext) (target : RecallTarget) :
    HsmResult (EntityState × State κ) := do
  let entity ← okOr (self.entities.lookup target.data.entity.entity) (.notFound "entity")
  let result := { entity.public with
    residency := .dual, revision := entity.public.revision + 1 }
  let next := { self with
    entities := self.entities.insert target.data.entity.entity ⟨result, some target.layoutId⟩
    recalls := self.recalls.erase target.layoutId }
  let next ← next.finish ctx target.data (.«recall» target.archive) result
  return (result, next)

end State

namespace LocalStorage

variable [Crates]

/-! ## The protected steps -/

omit [DecidableEq κ] in
def prepareArchiveEffect (root : Dir) (ctx : OperationContext) (data : DataKey)
    (state : State κ) : Io κ (DataView × State κ) := do
  let entity ← state.entity data
  let layout ← okOr entity.published (.conflict "source offline")
  if state.views.Any (fun v => v.view.data = data) then
    throw (.busy "source view already pinned")
  let viewId ← uuid
  let view : DataView :=
    { data, viewId
      length := entity.public.length
      digest := entity.public.digest
      source := endpoint (layoutDir root layout) }
  return (view, { state with views := state.views.insert viewId ⟨ctx, view⟩ })

omit [DecidableEq κ] in
def commitArchiveEffect (ctx : OperationContext) (view : DataView) (receipt : ArchiveReceipt)
    (state : State κ) : Io κ (EntityState × State κ) := do
  let owner ← okOr (state.views.lookup view.viewId) (.notFound "source view")
  if owner.context ≠ ctx ∨ owner.view ≠ view then throw .fenced
  let source ← decodeEndpoint view.source
  withTransferLock source.root (liftM (state.attachAnchor ctx view receipt))

omit [DecidableEq κ] [Crates] in
def releaseEffect (root : Dir) (ctx : OperationContext) (expected : EntityState)
    (state : State κ) : Io κ (EntityState × State κ) := do
  let layout ← state.releasable expected
  withTransferLock (layoutDir root layout) (liftM (state.detach ctx expected layout))

omit [DecidableEq κ] in
def prepareRecallEffect (root : Dir) (ctx : OperationContext) (expected : EntityState)
    (anchor : ArchiveReceipt) (state : State κ) : Io κ (RecallTarget × State κ) := do
  state.recallable expected anchor
  let layout ← newLayout (layoutsDir root)
  let target : RecallTarget :=
    { data := expected.data
      archive := anchor.key
      layoutId := layout
      destination := endpoint (layoutDir root layout) }
  return (target, { state with recalls := state.recalls.insert layout ⟨ctx, target, anchor⟩ })

omit [DecidableEq κ] in
def commitRecallEffect (root : Dir) (ctx : OperationContext) (target : RecallTarget)
    (evidence : TransferEvidence) (state : State κ) : Io κ (EntityState × State κ) := do
  let owner ← okOr (state.recalls.lookup target.layoutId) (.notFound "private Recall layout")
  if owner.context ≠ ctx ∨ owner.target ≠ target then throw .fenced
  let layout := layoutDir root target.layoutId
  let destination ← decodeEndpoint target.destination
  if destination.root ≠ layout then throw .fenced
  withTransferLock layout do
    let (length, digest) ← digestFile layout
    state.sealable owner target evidence length digest
    syncFile layout .data
    syncDir layout
    writeJson layout .sealed (.seal (.recalled target.data))
    state.publish ctx target

variable [KeyHash κ] (self : LocalStorage κ) (ctx : OperationContext)

def prepareArchive (data : DataKey) : Prog (LocalSig κ) (HsmResult DataView × LocalStorage κ) :=
  self.step ctx (.prepareArchive data) (prepareArchiveEffect self.root ctx data)

def commitArchive (view : DataView) (receipt : ArchiveReceipt) :
    Prog (LocalSig κ) (HsmResult EntityState × LocalStorage κ) :=
  self.step ctx (.commitArchive view receipt) (commitArchiveEffect ctx view receipt)

omit [Crates] in
def release (expected : EntityState) :
    Prog (LocalSig κ) (HsmResult EntityState × LocalStorage κ) :=
  self.step ctx (.release expected) (releaseEffect self.root ctx expected)

def prepareRecall (expected : EntityState) (anchor : ArchiveReceipt) :
    Prog (LocalSig κ) (HsmResult RecallTarget × LocalStorage κ) :=
  self.step ctx (.prepareRecall expected anchor)
    (prepareRecallEffect self.root ctx expected anchor)

def commitRecall (target : RecallTarget) (evidence : TransferEvidence) :
    Prog (LocalSig κ) (HsmResult EntityState × LocalStorage κ) :=
  self.step ctx (.commitRecall target evidence)
    (commitRecallEffect self.root ctx target evidence)

end LocalStorage

namespace LocalStorage

/-! ## Queries, import, garbage collection and open -/

omit [DecidableEq κ] in
def completed (self : LocalStorage κ) (ctx : OperationContext) (data : DataKey)
    (action : ManagedAction) : HsmResult (Option EntityState) := do
  qualify ctx
  self.healthy
  self.state.validateKey data.entity
  match self.state.completed.lookup ctx.operationId with
  | some old =>
      if old.context = ctx ∧ old.data = data ∧ old.action = action then return some old.state
      else throw (.conflict "operation ID reused with different inputs")
  | none => return none

omit [DecidableEq κ] in
def inspect (self : LocalStorage κ) (entity : EntityKey) : HsmResult EntityState := do
  self.healthy
  self.state.validateKey entity
  let e ← okOr (self.state.entities.lookup entity.entity) (.notFound "entity")
  return e.public

omit [DecidableEq κ] in
/-- Read online bytes through native metadata; offline is explicit. -/
def read (self : LocalStorage κ) (entity : EntityKey) : Io κ Bytes := do
  self.healthy
  self.state.validateKey entity
  let entry ← okOr (self.state.entities.lookup entity.entity) (.notFound "entity")
  let layout ← okOr entry.published (.conflict "offline: request Recall first")
  match ← readFile (layoutDir self.root layout) .data with
  | .bytes b => return b
  | _ => throw (.io ⟨.other, "not a payload file"⟩)

omit [DecidableEq κ] in
/-- Fill and seal the layout of an import; returns its name, length and digest. -/
def importLayout [Crates] (root : Dir) (bytes : Bytes) :
    Io κ (String × Nat × ContentDigest) := do
  let layout ← newLayout (layoutsDir root)
  let path := layoutDir root layout
  createNew path .data (.bytes bytes)
  syncFile path .data
  syncDir path
  let (length, digest) ← digestFile path
  writeJson path .sealed (.seal (.imported digest))
  return (layout, length, digest)

omit [DecidableEq κ] in
def imported (state : State κ) (entityId layout : String) (length : Nat)
    (digest : ContentDigest) : Entity where
  «public» :=
    { data := ⟨⟨state.storageId, state.namespace, entityId⟩, 1⟩
      revision := 1, residency := .online, length, digest, anchors := [] }
  published := some layout

omit [DecidableEq κ] in
def «import» [Crates] (self : LocalStorage κ) (entityId : String) (bytes : Bytes) :
    Prog (LocalSig κ) (HsmResult EntityState × LocalStorage κ) :=
  if entityId = "" then return (.error (.invalid "entity ID required"), self)
  else match self.healthy with
  | .error e => return (.error e, self)
  | .ok () =>
    if entityId ∈ self.state.entities then
      return (.error (.conflict "entity already exists"), self)
    else do
      match ← (importLayout self.root bytes).run with
      | .error e => return (.error e, self)
      | .ok (layout, length, digest) =>
          let entity := imported self.state entityId layout length digest
          let next := { self.state with entities := self.state.entities.insert entityId entity }
          self.adopt next (.ok entity.public)

omit [DecidableEq κ] in
def sweep (root : Dir) : List String → Io κ Nat
  | [] => return 0
  | layout :: rest => do
      let path := layoutDir root layout
      if ← existsDir path then withTransferLock path (removeDirAll path)
      return (← sweep root rest) + 1

omit [DecidableEq κ] in
/-- Retry committed local GC. -/
def collectGarbage (self : LocalStorage κ) :
    Prog (LocalSig κ) (HsmResult Nat × LocalStorage κ) :=
  match self.healthy with
  | .error e => return (.error e, self)
  | .ok () => do
      let swept : Io κ Nat := do
        let count ← sweep self.root self.state.gc
        syncDir (layoutsDir self.root)
        return count
      match ← swept.run with
      | .error e => return (.error e, self)
      | .ok count => self.adopt { self.state with gc := [] } (.ok count)

omit [DecidableEq κ] in
def readState (root : Dir) : Io κ (State κ) := do
  if ← existsFile root .state then
    decode (fun | .state s => some s | _ => none) (← readFile root .state)
  else
    let storageId ← uuid
    let ns ← uuid
    writeJson root .state (.state (State.new storageId ns))
    return State.new storageId ns

omit [DecidableEq κ] in
/-- The part of `open` under the owner lock. -/
def load (root : Dir) : Io κ (LocalStorage κ) := do
  createDirAll (layoutsDir root)
  syncDir root
  let state ← readState root
  if state.schema ≠ 1 then throw (.unsupported "native metadata schema")
  return ⟨root, state, false⟩

omit [DecidableEq κ] in
/-- Open a dedicated managed root. The owner lock prevents multiple owners. -/
def «open» (root : Dir) : Io κ (LocalStorage κ) := do
  lockRoot root
  ExceptT.mk do
    match ← (load root).run with
    | .ok self => return .ok self
    | .error e => .op (.unlock root .ownerLock) fun _ => .ret (.error e)

end LocalStorage

end HsmRs
