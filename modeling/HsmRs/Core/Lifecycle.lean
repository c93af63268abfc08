import HsmRs.Engine.Intent

/-! # Lifecycle definitions

Policies and pages of the storage-owned lifecycle, with the bounds that a policy is held to
before it is admitted.
-/

namespace HsmRs

/-- One action against a configured archive backend. -/
inductive PolicyAction | archive | release | «recall»
  deriving DecidableEq

/-- Hysteresis: start at high, stop only after actual usage reaches low. -/
structure CapacityWatermarks where
  highBasisPoints : Nat
  lowBasisPoints : Nat
  deriving DecidableEq

/-- Storage-side policy controls. -/
structure PolicySelection where
  scanIntervalMs : Nat := 60000
  scanBudget : Nat := 1024
  maxCandidates : Nat := 128
  accessAgeWeight : Nat := 1
  minAccessAgeMs : Nat := 0
  minModifyAgeMs : Nat := 0
  excludePrefixes : List String := []
  owner : Option String := none
  group : Option String := none
  capacity : Option CapacityWatermarks := none
  deriving DecidableEq

/-- Evaluated by source storage against its authoritative records. -/
structure LifecyclePolicy where
  selection : PolicySelection := {}
  id : String
  revision : Nat
  enabled : Bool
  pathPrefix : String
  minSize : Nat
  maxSize : Option Nat
  minResidencyMs : Nat
  action : PolicyAction
  backend : String
  deriving DecidableEq

def i64Max : Nat := 9223372036854775807

/-- Validate portable limits before admission. -/
def LifecyclePolicy.validate (policy : LifecyclePolicy) : HsmResult Unit :=
  if policy.selection.scanIntervalMs = 0 ∨ policy.selection.scanIntervalMs > i64Max ∨
      policy.selection.scanBudget = 0 ∨ policy.selection.scanBudget > 65536 ∨
      policy.selection.maxCandidates = 0 ∨ policy.selection.maxCandidates > 4096 ∨
      policy.selection.accessAgeWeight = 0 ∨ policy.selection.minAccessAgeMs > i64Max ∨
      policy.selection.minModifyAgeMs > i64Max ∨ policy.selection.excludePrefixes.length > 64 ∨
      policy.selection.capacity.any (fun w =>
        w.lowBasisPoints ≥ w.highBasisPoints || w.highBasisPoints > 10000) ∨
      policy.id = "" ∨ policy.id.utf8ByteSize > 64 ∨
      ¬ policy.id.toList.all (fun c => c.isAlphanum || c = '-' || c = '_') ∨
      policy.revision = 0 ∨ policy.backend = "" ∨ policy.backend.utf8ByteSize > 128 ∨
      policy.maxSize.any (· < policy.minSize) ∨ policy.minResidencyMs > i64Max then
    .error (.invalid "invalid lifecycle policy bounds or identity")
  else .ok ()

theorem LifecyclePolicy.scanBudget_of_validate {policy : LifecyclePolicy}
    (h : policy.validate = .ok ()) :
    1 ≤ policy.selection.scanBudget ∧ policy.selection.scanBudget ≤ 65536 := by
  unfold validate at h
  split at h
  · cases h
  · omega

/-- Bounded page; the cursor is source-opaque. -/
structure LifecyclePage (α : Type) where
  items : List α
  next : Option String

/-- Candidate scan result: admission is a committed storage transaction. -/
structure ScanBatch where
  toSeal : List DataKey
  examined : Nat
  admitted : List String
  next : Option String

end HsmRs
