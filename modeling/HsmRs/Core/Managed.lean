import HsmRs.Lib.FileSystem

/-! # The storage-independent interface

Identities, receipts, observations and failure classes shared by the engine and
its adapters.
-/

namespace HsmRs

abbrev Bytes := List UInt8

/-- Stable identity; paths are not identities. -/
structure EntityKey where
  storage : String
  «namespace» : String
  entity : String
  deriving DecidableEq

/-- One exact content generation of an entity. -/
structure DataKey where
  entity : EntityKey
  generation : Nat
  deriving DecidableEq

/-- Stable identity on one archive backend. -/
structure ArchiveKey where
  backend : String
  object : String
  deriving DecidableEq

structure ContentDigest where
  algorithm : String
  value : Bytes
  deriving DecidableEq

/-- Opaque data capability, read by the adapter that issued it. -/
structure DataEndpoint where
  adapter : String
  capability : Bytes
  deriving DecidableEq

structure OperationContext where
  operationId : String
  controllerEpoch : Nat
  attemptEpoch : Nat
  deriving DecidableEq

inductive ManagedAction
  | archive (key : ArchiveKey)
  | release
  | «recall» (key : ArchiveKey)
  deriving DecidableEq

/-- A source view whose bytes remain fixed until explicitly closed. -/
structure DataView where
  data : DataKey
  viewId : String
  length : Nat
  digest : ContentDigest
  source : DataEndpoint
  deriving DecidableEq

/-- Backend-private destination, not an assertion of commitment. -/
structure ArchiveTarget where
  key : ArchiveKey
  destination : DataEndpoint
  deriving DecidableEq

structure TransferEvidence where
  length : Nat
  digest : ContentDigest
  deriving DecidableEq

/-- Backend assertion of durable, immutable archive commitment. -/
structure ArchiveReceipt where
  key : ArchiveKey
  data : DataKey
  length : Nat
  digest : ContentDigest
  receiptId : String
  durabilityProfile : String
  deriving DecidableEq

inductive ArchiveStatus
  | absent
  | pending
  | committed (receipt : ArchiveReceipt)
  | unknown
  deriving DecidableEq

/-- Storage-private restoration target belonging to the original entity. -/
structure RecallTarget where
  data : DataKey
  layoutId : String
  archive : ArchiveKey
  destination : DataEndpoint
  deriving DecidableEq

inductive Residency | online | dual | offline
  deriving DecidableEq

/-- Authoritative source observation. -/
structure EntityState where
  data : DataKey
  revision : Nat
  residency : Residency
  length : Nat
  digest : ContentDigest
  anchors : List ArchiveReceipt
  deriving DecidableEq

/-- Portable failure classes. Transport uncertainty is not a negative outcome. -/
inductive HsmError
  | invalid (message : String)
  | conflict (message : String)
  | busy (message : String)
  | notFound (message : String)
  | fenced
  | integrity (message : String)
  | unknown (message : String)
  | unsupported (message : String)
  | io (error : IoError)
  deriving DecidableEq

abbrev HsmResult := Except HsmError

namespace HsmError

def display : HsmError → String
  | invalid m => "invalid request: " ++ m
  | conflict m => "conditional mutation conflict: " ++ m
  | busy m => "protected data is busy: " ++ m
  | notFound m => "not found: " ++ m
  | fenced => "stale execution qualification"
  | integrity m => "integrity verification failed: " ++ m
  | unknown m => "outcome unknown: " ++ m
  | unsupported m => "unsupported capability: " ++ m
  | io e => "I/O error: " ++ e.text

/-- An answer that settles the request: any class but `unknown` and `io`. -/
def Definite : HsmError → Prop
  | unknown _ | io _ => False
  | _ => True

instance : DecidablePred Definite := fun e => by
  cases e <;> simp only [Definite] <;> infer_instance

end HsmError

/-- Validate portable invariants before causing any side effect. -/
def OperationContext.validate (ctx : OperationContext) : HsmResult Unit :=
  if ctx.operationId = "" ∨ ctx.controllerEpoch = 0 ∨ ctx.attemptEpoch = 0 then
    .error (.invalid "operation ID and nonzero epochs required")
  else .ok ()

theorem OperationContext.validate_eq_ok {ctx : OperationContext} :
    ctx.validate = .ok () ↔
      ctx.operationId ≠ "" ∧ ctx.controllerEpoch ≠ 0 ∧ ctx.attemptEpoch ≠ 0 := by
  unfold validate
  grind

end HsmRs
