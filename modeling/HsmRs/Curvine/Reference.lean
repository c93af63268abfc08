import HsmRs.Curvine.Native
import HsmRs.Local.Reference

/-! # An instance of the Curvine client

JSON with sorted keys, for strings that need no escapes, and the replies of a server with
small files. Evidence of a Worker is that of the interface, an endpoint is any JSON value, and
the blocks of a file are known by its path.
-/

namespace HsmRs

namespace Reference

inductive Json
  | null
  | num (n : Nat)
  | str (s : String)
  | arr (xs : List Json)
  | obj (fields : List (String × Json))

namespace Json

mutual
def text : Json → String
  | null => "null"
  | num n => toString n
  | str s => "\"" ++ s ++ "\""
  | arr xs => "[" ++ textAll xs ++ "]"
  | obj fields => "\x7b" ++ textFields fields ++ "\x7d"

def textAll : List Json → String
  | [] => ""
  | [x] => x.text
  | x :: xs => x.text ++ "," ++ textAll xs

def textFields : List (String × Json) → String
  | [] => ""
  | [(k, x)] => "\"" ++ k ++ "\":" ++ x.text
  | (k, x) :: fields => "\"" ++ k ++ "\":" ++ x.text ++ "," ++ textFields fields
end

def utf8 (j : Json) : Bytes := j.text.toUTF8.data.toList

def field : Json → String → Json
  | obj fields, k => (fields.lookup k).getD null
  | _, _ => null

def asStr : Json → Option String
  | str s => some s
  | _ => none

def asNat : Json → Option Nat
  | num n => some n
  | _ => none

def asList : Json → Option (List Json)
  | arr xs => some xs
  | _ => none

/-! ## The types of the interface -/

def bytes (b : Bytes) : Json := arr (b.map fun x => num x.toNat)

def toBytes (j : Json) : Option Bytes := do
  (← j.asList).mapM fun x => UInt8.ofNat <$> x.asNat

def context (ctx : OperationContext) : Json :=
  obj [("attempt_epoch", num ctx.attemptEpoch), ("controller_epoch", num ctx.controllerEpoch),
    ("operation_id", str ctx.operationId)]

def entityKey (e : EntityKey) : Json :=
  obj [("entity", str e.entity), ("namespace", str e.namespace), ("storage", str e.storage)]

def dataKey (data : DataKey) : Json :=
  obj [("entity", entityKey data.entity), ("generation", num data.generation)]

def toDataKey (j : Json) : Option DataKey := do
  let entity := j.field "entity"
  return ⟨⟨← (entity.field "storage").asStr, ← (entity.field "namespace").asStr,
    ← (entity.field "entity").asStr⟩, ← (j.field "generation").asNat⟩

def archiveKey (key : ArchiveKey) : Json :=
  obj [("backend", str key.backend), ("object", str key.object)]

def toArchiveKey (j : Json) : Option ArchiveKey := do
  return ⟨← (j.field "backend").asStr, ← (j.field "object").asStr⟩

def digest (d : ContentDigest) : Json :=
    obj [("algorithm", str d.algorithm), ("value", bytes d.value)]

def toDigest (j : Json) : Option ContentDigest := do
  return ⟨← (j.field "algorithm").asStr, ← (j.field "value").toBytes⟩

def dataEndpoint (e : DataEndpoint) : Json :=
  obj [("adapter", str e.adapter), ("capability", bytes e.capability)]

def toDataEndpoint (j : Json) : Option DataEndpoint := do
  return ⟨← (j.field "adapter").asStr, ← (j.field "capability").toBytes⟩

def evidence (e : TransferEvidence) : Json :=
    obj [("digest", digest e.digest), ("length", num e.length)]

def view (v : DataView) : Json :=
  obj [("data", dataKey v.data), ("digest", digest v.digest), ("length", num v.length),
    ("source", dataEndpoint v.source), ("view_id", str v.viewId)]

def toView (j : Json) : Option DataView := do
  return ⟨← (j.field "data").toDataKey, ← (j.field "view_id").asStr, ← (j.field "length").asNat,
    ← (j.field "digest").toDigest, ← (j.field "source").toDataEndpoint⟩

def «recall» (t : RecallTarget) : Json :=
  obj [("archive", archiveKey t.archive), ("data", dataKey t.data),
    ("destination", dataEndpoint t.destination), ("layout_id", str t.layoutId)]

def toRecall (j : Json) : Option RecallTarget := do
  return ⟨← (j.field "data").toDataKey, ← (j.field "layout_id").asStr,
    ← (j.field "archive").toArchiveKey, ← (j.field "destination").toDataEndpoint⟩

def receipt (r : ArchiveReceipt) : Json :=
  obj [("data", dataKey r.data), ("digest", digest r.digest),
    ("durability_profile", str r.durabilityProfile), ("key", archiveKey r.key),
    ("length", num r.length), ("receipt_id", str r.receiptId)]

def toReceipt (j : Json) : Option ArchiveReceipt := do
  return ⟨← (j.field "key").toArchiveKey, ← (j.field "data").toDataKey, ← (j.field "length").asNat,
    ← (j.field "digest").toDigest, ← (j.field "receipt_id").asStr,
    ← (j.field "durability_profile").asStr⟩

def residency : Residency → Json
  | .online => str "Online"
  | .dual => str "Dual"
  | .offline => str "Offline"

def toResidency : Json → Option Residency
  | str "Online" => some .online
  | str "Dual" => some .dual
  | str "Offline" => some .offline
  | _ => none

def entity (s : EntityState) : Json :=
  obj [("anchors", arr (s.anchors.map receipt)), ("data", dataKey s.data),
    ("digest", digest s.digest), ("length", num s.length), ("residency", residency s.residency),
    ("revision", num s.revision)]

def toEntity (j : Json) : Option EntityState := do
  return ⟨← (j.field "data").toDataKey, ← (j.field "revision").asNat,
    ← (j.field "residency").toResidency, ← (j.field "length").asNat, ← (j.field "digest").toDigest,
    ← (← (j.field "anchors").asList).mapM toReceipt⟩

def toCompleted : Json → Option (Option EntityState)
  | null => some none
  | j => some <$> j.toEntity

/-! ## Requests and replies -/

def request : NativeRequest → Json
  | .openView ctx data =>
      obj [("context", context ctx), ("data", dataKey data), ("op", str "open_view")]
  | .closeView ctx v => obj [("context", context ctx), ("op", str "close_view"), ("view", view v)]
  | .completedImport ctx path length d =>
      obj [("context", context ctx), ("digest", digest d), ("length", num length),
        ("op", str "completed_import"), ("path", str path)]
  | .prepareImport ctx path length d =>
      obj [("context", context ctx), ("digest", digest d), ("length", num length),
        ("op", str "prepare_import"), ("path", str path)]
  | .commitImport ctx target e =>
      obj [("context", context ctx), ("evidence", evidence e), ("op", str "commit_import"),
        ("target", «recall» target)]
  | .viewBlocks capability => obj [("capability", bytes capability), ("op", str "view_blocks")]
  | .sealBegin key data token =>
      obj [("data", dataKey data), ("entity", entityKey key), ("op", str "seal_begin"),
        ("token", str token)]
  | .sealCommit key data token e =>
      obj [("data", dataKey data), ("entity", entityKey key), ("evidence", evidence e),
        ("op", str "seal_commit"), ("token", str token)]

def reply (kind : String) (data : Json) : Json := obj [("data", data), ("kind", str kind)]

end Json

def orRefuse {α : Type} : Option α → Except String α
  | some a => .ok a
  | none => .error "invalid type"

/-! ## A small server -/

def readContext : OperationContext := ⟨"read", 1, 1⟩

def file (n : Nat) : DataKey := ⟨⟨"s", "n", "e"⟩, n⟩

def emptyView (n : Nat) : DataView :=
  ⟨file n, "v", 0, ⟨"blake3", blake3Empty⟩, ⟨"curvine-view-v1", []⟩⟩

def emptyState : EntityState := ⟨file 1, 1, .online, 0, ⟨"blake3", blake3Empty⟩, []⟩

def worker : Json := .obj [("worker", .str "w")]

def knownReplies : List Json :=
  [worker, .reply "view" (.view (emptyView 1)), .reply "view" (.view (emptyView 2)),
    .reply "entity" (.entity emptyState), .reply "completed" (.entity emptyState),
    .reply "blocks" (.obj [("path", .str "/f")])]

def parse (b : Bytes) : Except String Json :=
  match knownReplies.find? fun j => j.utf8 = b with
  | some j => .ok j
  | none => .error "expected value at line 1 column 1"

scoped instance : CurvineCrates where
  Endpoint := Json
  FileBlocks := String
  Evidence := TransferEvidence
  Json := Json
  chunkBytes := 1024 * 1024
  toVec r := .ok (Json.request r).utf8
  fromSlice := parse
  field := Json.field
  asStr := Json.asStr
  toView j := orRefuse j.toView
  toEntity j := orRefuse j.toEntity
  toCompleted j := orRefuse j.toCompleted
  toRecall j := orRefuse j.toRecall
  toBlocks j := orRefuse (j.field "path").asStr
  endpoint := parse
  fileBlocks b := (parse b).bind fun j => orRefuse (j.field "path").asStr
  portable := .ok

end Reference

end HsmRs
