import HsmRs.Core.Managed
import HsmRs.Lib.Table

/-! # Metadata of the local adapters

The records that local storage and the local archive keep, and the files that
hold them. A JSON file is represented by the value it encodes. The hash that
names steps, receipts and attempts is a parameter: `κ` is the type of its hex
strings.
-/

namespace HsmRs

/-- The protected steps, by the name under which a step is recorded. -/
inductive StepName
  | prepareArchive | commitArchive | release | prepareRecall | commitRecall
  deriving DecidableEq

/-- The arguments of a protected step besides its context. -/
inductive StepRequest
  | prepareArchive (data : DataKey)
  | commitArchive (view : DataView) (receipt : ArchiveReceipt)
  | release (expected : EntityState)
  | prepareRecall (expected : EntityState) (anchor : ArchiveReceipt)
  | commitRecall (target : RecallTarget) (evidence : TransferEvidence)
  deriving DecidableEq

def StepRequest.name : StepRequest → StepName
  | prepareArchive _ => .prepareArchive
  | commitArchive _ _ => .commitArchive
  | release _ => .release
  | prepareRecall _ _ => .prepareRecall
  | commitRecall _ _ => .commitRecall

/-- The values whose JSON encoding the adapters hash. -/
inductive Keyed
  | step (ctx : OperationContext) (name : StepName)
  | request (ctx : OperationContext) (request : StepRequest)
  | archive (key : ArchiveKey)
  | attempt (ctx : OperationContext) (key : ArchiveKey)
  deriving DecidableEq

/-- `util::key`: the BLAKE3 hash of a JSON encoding, as a hex string. -/
class KeyHash (κ : Type) where
  key : Keyed → κ

export KeyHash (key)

/-- What `decode_endpoint` reads from a capability. -/
structure LocalEndpoint where
  isAbsolute : Bool
  root : Dir
  path : String
  deriving DecidableEq

/-- The library functions the local adapters rely on: BLAKE3 over file contents, and the
JSON encoding of endpoints with its round trip. -/
class Crates where
  blake3 : Bytes → Bytes
  toVec : LocalEndpoint → Bytes
  fromSlice : Bytes → Except String LocalEndpoint
  fromSlice_toVec : ∀ e, fromSlice (toVec e) = .ok e

/-! ## Local storage -/

inductive StepValue
  | view (view : DataView)
  | state (state : EntityState)
  | target (target : RecallTarget)
  deriving DecidableEq

inductive SavedFailure
  | invalid (message : String)
  | conflict (message : String)
  | busy (message : String)
  | notFound (message : String)
  | fenced
  | integrity (message : String)
  | unsupported (message : String)
  deriving DecidableEq

namespace SavedFailure

def capture : HsmError → Option SavedFailure
  | .invalid m => some (invalid m)
  | .conflict m => some (conflict m)
  | .busy m => some (busy m)
  | .notFound m => some (notFound m)
  | .fenced => some fenced
  | .integrity m => some (integrity m)
  | .unsupported m => some (unsupported m)
  | .unknown _ | .io _ => none

def intoError : SavedFailure → HsmError
  | invalid m => .invalid m
  | conflict m => .conflict m
  | busy m => .busy m
  | notFound m => .notFound m
  | fenced => .fenced
  | integrity m => .integrity m
  | unsupported m => .unsupported m

theorem capture_eq_some {e : HsmError} {f : SavedFailure} :
    capture e = some f ↔ e = f.intoError := by
  cases e <;> cases f <;> simp [capture, intoError, eq_comm]

theorem capture_eq_none {e : HsmError} : capture e = none ↔ ¬ e.Definite := by
  cases e <;> simp [capture, HsmError.Definite]

theorem intoError_definite (f : SavedFailure) : f.intoError.Definite := by
  cases f <;> simp [intoError, HsmError.Definite]

end SavedFailure

structure SavedStep (κ : Type) where
  fingerprint : κ
  result : Except SavedFailure StepValue
  deriving DecidableEq

structure Entity where
  «public» : EntityState
  published : Option String
  deriving DecidableEq

structure ViewOwner where
  context : OperationContext
  view : DataView
  deriving DecidableEq

structure RecallOwner where
  context : OperationContext
  target : RecallTarget
  anchor : ArchiveReceipt
  deriving DecidableEq

structure Completed where
  context : OperationContext
  data : DataKey
  action : ManagedAction
  state : EntityState
  deriving DecidableEq

structure State (κ : Type) where
  schema : Nat
  storageId : String
  «namespace» : String
  entities : Table String Entity
  views : Table String ViewOwner
  recalls : Table String RecallOwner
  steps : Table κ (SavedStep κ)
  completed : Table String Completed
  gc : List String

/-! ## Local archive -/

structure Prepared where
  context : OperationContext
  key : ArchiveKey
  view : DataView
  target : ArchiveTarget
  deriving DecidableEq

structure Committed where
  receipt : ArchiveReceipt
  payload : DataEndpoint
  deriving DecidableEq

/-! ## Files -/

/-- What a `sealed.json` holds: the digest of an import, the target of an archive or the
content key of a recall. It is never read back. -/
inductive Seal
  | imported (digest : ContentDigest)
  | archived (key : ArchiveKey) (data : DataKey) (digest : ContentDigest)
  | recalled (data : DataKey)
  deriving DecidableEq

inductive Content (κ : Type)
  | bytes (b : Bytes)
  | state (s : State κ)
  | prepared (p : Prepared)
  | committed (c : Committed)
  | text (s : String)
  | seal (s : Seal)

inductive FileName (κ : Type)
  | data
  | sealed
  | state
  | backendId
  | ownerLock
  | transferLock
  | hashed (h : κ)
  | tmp (u : String)
  | receiptTmp (u : String)
  deriving DecidableEq

/-- Files under a name of their own until they are renamed or removed. -/
def FileName.IsTemp {κ : Type} : FileName κ → Prop
  | tmp _ | receiptTmp _ => True
  | _ => False

end HsmRs
