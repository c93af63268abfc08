import HsmRs.Local.Util

/-! # Local archive

A durable catalog of immutable receipts. Attempts get private targets under
`attempts`, committed objects are published under `objects`. Its calls are
serialised by a mutex and keep nothing in memory but the root and the backend ID.
-/

namespace HsmRs

structure LocalArchive where
  root : Dir
  id : String

def objectsDir (root : Dir) : Dir := "objects" :: root

def attemptsDir (root : Dir) : Dir := "attempts" :: root

def sameAttempt (a b : OperationContext) : Prop :=
  a.operationId = b.operationId ∧ a.attemptEpoch = b.attemptEpoch

instance : DecidableRel sameAttempt := fun _ _ => inferInstanceAs (Decidable (_ ∧ _))

namespace LocalArchive

variable {κ : Type} [KeyHash κ] (self : LocalArchive)

def receiptPath (archive : ArchiveKey) : HsmResult (FileName κ) :=
  if archive.backend ≠ self.id ∨ archive.object = "" then
    .error (.invalid "archive key belongs to a different backend or is empty")
  else .ok (.hashed (key (.archive archive)))

/-- The file of an attempt; the controller epoch does not count. -/
def preparedPath (ctx : OperationContext) (archive : ArchiveKey) : FileName κ :=
  .hashed (key (.attempt { ctx with controllerEpoch := 1 } archive))

omit [KeyHash κ] in
def readIfPresent (d : Dir) (n : FileName κ) : Io κ (Option (Content κ)) :=
  ExceptT.mk (.op (.read d n) fun
    | .ok c => .ret (.ok (some c))
    | .error e => .ret (if e.kind = .notFound then .ok none else .error (.io e)))

omit [KeyHash κ] in
def decodePrepared : Content κ → Io κ Prepared :=
  decode fun | .prepared p => some p | _ => none

variable [Crates]

/-- The committed object of a key, read back and with its publication made durable. -/
def committed (archive : ArchiveKey) : Io κ (Option Committed) := do
  let path ← self.receiptPath archive
  match ← readIfPresent (objectsDir self.root) path with
  | none => return none
  | some content =>
      let value ← decode (fun | .committed c => some c | _ => none) content
      if value.receipt.key ≠ archive then throw (.integrity "receipt key mismatch")
      let endpoint ← decodeEndpoint value.payload
      let (length, digest) ← digestFile endpoint.root
      if value.receipt.length ≠ length ∨ value.receipt.digest ≠ digest then
        throw (.integrity "committed archive payload changed")
      syncFile endpoint.root .data
      syncDir endpoint.root
      syncDir (objectsDir self.root)
      return some value

def inspect (archive : ArchiveKey) : Io κ ArchiveStatus := do
  match ← self.committed archive with
  | some value => return .committed value.receipt
  | none => return .absent

def prepare (ctx : OperationContext) (archive : ArchiveKey) (view : DataView) :
    Io κ ArchiveTarget := do
  ctx.validate
  if (← self.committed archive).isSome then throw (.conflict "archive already committed")
  let preparedPath := preparedPath ctx archive
  if ← existsFile (attemptsDir self.root) preparedPath then
    let prior ← decodePrepared (← readFile (attemptsDir self.root) preparedPath)
    if ¬ sameAttempt prior.context ctx ∨ prior.key ≠ archive ∨ prior.view ≠ view then
      throw (.conflict "archive attempt reused with different inputs")
    return prior.target
  else
    let layout ← newLayout (attemptsDir self.root)
    let target : ArchiveTarget := ⟨archive, endpoint (layout :: attemptsDir self.root)⟩
    writeJson (attemptsDir self.root) preparedPath (.prepared ⟨ctx, archive, view, target⟩)
    return target

/-- The part of `commit` under the session lock of the target: read back, seal, publish. -/
def sealAndPublish (target : ArchiveTarget) (view : DataView) (evidence : TransferEvidence)
    (payload : Dir) : Io κ ArchiveReceipt := do
  let (length, digest) ← digestFile payload
  if length ≠ view.length ∨ digest ≠ view.digest ∨ evidence.length ≠ length ∨
      evidence.digest ≠ digest then
    throw (.integrity "archive does not match pinned content")
  syncFile payload .data
  syncDir payload
  writeJson payload .sealed (.seal (.archived target.key view.data digest))
  let receiptId ← uuid
  let receipt : ArchiveReceipt :=
    { key := target.key, data := view.data, length, digest, receiptId
      durabilityProfile := "local-fsync-v1" }
  let path ← self.receiptPath target.key
  publishReceipt (objectsDir self.root) path (.committed ⟨receipt, target.destination⟩)
  return receipt

def commit (ctx : OperationContext) (target : ArchiveTarget) (view : DataView)
    (evidence : TransferEvidence) : Io κ ArchiveReceipt := do
  ctx.validate
  let prior ← decodePrepared (← readFile (attemptsDir self.root) (preparedPath ctx target.key))
  if ¬ sameAttempt prior.context ctx ∨ prior.target ≠ target ∨ prior.view ≠ view then
    throw (.conflict "unowned archive target")
  match ← self.committed target.key with
  | some committed =>
      if committed.receipt.data = view.data ∧ committed.receipt.length = view.length ∧
          committed.receipt.digest = view.digest then
        return committed.receipt
      throw (.conflict "immutable archive key already has different content")
  | none =>
      let payload ← decodeEndpoint target.destination
      withTransferLock payload.root (self.sealAndPublish target view evidence payload.root)

def resumeCommit (ctx : OperationContext) (target : ArchiveTarget) (view : DataView) :
    Io κ (Option ArchiveReceipt) := do
  let payload ← decodeEndpoint target.destination
  if ← existsFile payload.root .sealed then
    -- commit checks ownership, fully reads back bytes and syncs publication
    return some (← self.commit ctx target view ⟨view.length, view.digest⟩)
  else return none

/-- `ArchiveBackend::open`: the payload of exactly this receipt. -/
def openReceipt (receipt : ArchiveReceipt) : Io κ DataEndpoint := do
  match ← self.committed receipt.key with
  | none => throw (.notFound "committed archive")
  | some actual =>
      if actual.receipt ≠ receipt then throw (.integrity "receipt mismatch")
      return actual.payload

omit [KeyHash κ] [Crates] in
/-- Check the identity of an owned root and make its directories durable. -/
def load (root : Dir) (id : String) : Io κ LocalArchive := do
  if id = "" then throw (.invalid "backend ID required")
  if ← existsFile root .backendId then
    let prior ← decode (fun | .text s => some s | _ => none) (← readFile root .backendId)
    if prior ≠ id then throw (.conflict "archive backend ID changed")
  else writeJson root .backendId (.text id)
  createDirAll (objectsDir root)
  createDirAll (attemptsDir root)
  syncDir root
  return ⟨root, id⟩

omit [KeyHash κ] [Crates] in
/-- Open a dedicated private archive root, rejecting concurrent owners. -/
def «open» (root : Dir) (id : String) : Io κ LocalArchive := do
  lockRoot root
  ExceptT.mk do
    match ← (load root id).run with
    | .ok self => return .ok self
    | .error e => .op (.unlock root .ownerLock) fun _ => .ret (.error e)

end LocalArchive

end HsmRs
