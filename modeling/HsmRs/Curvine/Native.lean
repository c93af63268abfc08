import HsmRs.Curvine.Control
import HsmRs.Lib.Loop
import HsmRs.Local.Util

/-! # Native managed files

Data transfer between Curvine and local payload files, and the native calls that need it:
import, reading under a pin, and sealing. The Curvine client, its JSON and the local data mover
may answer anything.
-/

namespace HsmRs

/-- Version-1 JSON bodies of the native calls. -/
inductive NativeRequest
  | openView (context : OperationContext) (data : DataKey)
  | closeView (context : OperationContext) (view : DataView)
  | completedImport (context : OperationContext) (path : String) (length : Nat)
      (digest : ContentDigest)
  | prepareImport (context : OperationContext) (path : String) (length : Nat)
      (digest : ContentDigest)
  | commitImport (context : OperationContext) (target : RecallTarget) (evidence : TransferEvidence)
  | viewBlocks (capability : Bytes)
  | sealBegin (entity : EntityKey) (data : DataKey) (token : String)
  | sealCommit (entity : EntityKey) (data : DataKey) (token : String) (evidence : TransferEvidence)

/-- The types of the Curvine client, and the JSON of its requests and replies as far as it is
read, with the texts of the library for what it cannot read. -/
class CurvineCrates where
  Endpoint : Type
  FileBlocks : Type
  Evidence : Type
  Json : Type
  chunkBytes : Nat
  toVec : NativeRequest → Except String Bytes
  fromSlice : Bytes → Except String Json
  field : Json → String → Json
  asStr : Json → Option String
  toView : Json → Except String DataView
  toEntity : Json → Except String EntityState
  toCompleted : Json → Except String (Option EntityState)
  toRecall : Json → Except String RecallTarget
  toBlocks : Json → Except String FileBlocks
  endpoint : Bytes → Except String Endpoint
  fileBlocks : Bytes → Except String FileBlocks
  portable : Evidence → HsmResult TransferEvidence

open CurvineCrates

inductive WorkerRequest
  | read (offset length : Nat)
  | write (offset : Nat) (bytes : Bytes)
  | verify
  deriving DecidableEq

inductive WorkerReply [CurvineCrates]
  | done
  | bytes (bytes : Bytes)
  | verified (evidence : Evidence)

/-- What a transfer asks of its surroundings: control RPCs, the reader of a block view, the
Worker of an endpoint, and local files. `spin` is a loop that goes on. -/
inductive NativeOp [CurvineCrates]
  | exchange (request : NativeRequest)
  | hsmControl (request : NativeRequest)
  | parsePath (blocks : FileBlocks)
  | newReader (blocks : FileBlocks)
  | hasRemaining
  | asyncRead
  | completeReader
  | worker (endpoint : Endpoint) (request : WorkerRequest)
  | tempdir
  | canonicalize (root : Dir)
  | localCopy (ctx : OperationContext) (source destination : DataEndpoint)
  | createData (root : Dir)
  | writeAll (bytes : Bytes)
  | syncAll
  | openData (root : Dir)
  | readData
  | spin

abbrev NativeOp.Ans [CurvineCrates] : NativeOp → Type
  | exchange _ => HsmResult Bytes
  | hsmControl _ | asyncRead => Except String Bytes
  | parsePath _ | newReader _ | completeReader => Except String Unit
  | hasRemaining => Bool
  | worker _ _ => HsmResult WorkerReply
  | tempdir | canonicalize _ => Except IoError Dir
  | localCopy _ _ _ => HsmResult TransferEvidence
  | createData _ | writeAll _ | syncAll | openData _ => Except IoError Unit
  | readData => Except IoError Bytes
  | spin => Empty

abbrev nativeSig [CurvineCrates] : Sig := ⟨NativeOp, NativeOp.Ans⟩

abbrev Native [CurvineCrates] (α : Type) := ExceptT HsmError (Prog nativeSig) α

/-- `map_err` on an error of a library, which is only a text here. -/
def mapText {α : Type} (f : String → HsmError) (r : Except String α) : HsmResult α := r.mapError f

namespace Native

open Prog (call)

variable [CurvineCrates]

def hasRemaining : Native Bool := call .hasRemaining .ok
def asyncRead : Native Bytes := call .asyncRead (mapText .unknown)
def completeReader : Native Unit := call .completeReader (mapText .unknown)
/-- The client's errors are those of the interface, variant by variant. -/
def workerRpc (endpoint : Endpoint) (request : WorkerRequest) : Native WorkerReply :=
  call (.worker endpoint request) fun x => x
def tempdir : Native Dir := call .tempdir (Except.mapError .io)
def createData (root : Dir) : Native Unit := call (.createData root) (Except.mapError .io)
def writeAll (bytes : Bytes) : Native Unit := call (.writeAll bytes) (Except.mapError .io)
def syncAll : Native Unit := call .syncAll (Except.mapError .io)
def openData (root : Dir) : Native Unit := call (.openData root) (Except.mapError .io)
/-- Read into the buffer: what it holds of the file afterwards. -/
def readData : Native Bytes := call .readData (Except.mapError .io)
def localCopy (ctx : OperationContext) (source destination : DataEndpoint) :
    Native TransferEvidence := call (.localCopy ctx source destination) fun x => x
def payloadEndpoint [Crates] (root : Dir) : Native DataEndpoint := do
  return endpoint (← call (.canonicalize root) (Except.mapError .io))

end Native

structure Received where
  length : Nat
  hashed : Bytes

namespace Received

def empty : Received := ⟨0, []⟩

def update (self : Received) (bytes : Bytes) : Received :=
  ⟨self.length + bytes.length, self.hashed ++ bytes⟩

def evidence [Crates] (self : Received) : TransferEvidence := ⟨self.length, digestOf self.hashed⟩

end Received

namespace CurvineDataMover

open Native
open Prog (call stuck)

variable [CurvineCrates] [Crates] (fuel : Nat)

omit [Crates] in
/-- The blocks of a view: asked for under its capability, or, for views of an earlier version,
in the capability itself. -/
def viewBlocks (source : DataEndpoint) : Native FileBlocks :=
  if source.adapter = "curvine-block-view-v2" then do
    let request := .viewBlocks source.capability
    let _ ← mapText .invalid (toVec request)
    let response ← call (.hsmControl request) (mapText .unknown)
    let value ← mapText .unknown (CurvineCrates.fromSlice response)
    if asStr (field value "kind") = some "error" then
      throw (remoteError ((asStr (field (field value "data") "code")).getD "unknown")
        ((asStr (field (field value "data") "message")).getD "view lookup failed"))
    if asStr (field value "kind") ≠ some "blocks" then
      throw (.integrity "invalid protected block view response")
    mapText .integrity (toBlocks (field value "data"))
  else mapText .invalid (fileBlocks source.capability)

omit [Crates] in
def readChunk (received : Received) : Native (Received ⊕ Received) := do
  if ← hasRemaining then
    let bytes ← asyncRead
    if bytes = [] then throw (.integrity "short native view")
    writeAll bytes
    return .inl (received.update bytes)
  else return .inr received

def downloadBlocks (source : DataEndpoint) (root : Dir) : Native TransferEvidence := do
  let blocks ← viewBlocks source
  call (.parsePath blocks) (mapText .invalid)
  call (.newReader blocks) (mapText .unknown)
  createData root
  let received ← Prog.loop (stuck .spin id) readChunk fuel .empty
  completeReader
  syncAll
  return received.evidence

omit [Crates] in
def readWorker (endpoint : Endpoint) (received : Received) : Native (Received ⊕ Received) := do
  match ← workerRpc endpoint (.read received.length chunkBytes) with
  | .bytes bytes =>
      if bytes = [] then return .inr received
      if bytes.length > chunkBytes then throw (.integrity "oversized native data chunk")
      writeAll bytes
      return .inl (received.update bytes)
  | _ => throw (.unknown "unexpected Worker read reply")

def downloadWorker (source : DataEndpoint) (root : Dir) : Native TransferEvidence := do
  let endpoint ← mapText .invalid (CurvineCrates.endpoint source.capability)
  createData root
  let received ← Prog.loop (stuck .spin id) (readWorker endpoint) fuel .empty
  syncAll
  return received.evidence

def download (source : DataEndpoint) (root : Dir) : Native TransferEvidence :=
  if source.adapter = "curvine-block-view-v1" ∨ source.adapter = "curvine-block-view-v2" then
    downloadBlocks fuel source root
  else downloadWorker fuel source root

omit [Crates] in
def writeWorker (endpoint : Endpoint) (offset : Nat) : Native (Nat ⊕ Nat) := do
  let bytes ← readData
  if bytes = [] then return .inr offset
  match ← workerRpc endpoint (.write offset bytes) with
  | .done => return .inl (offset + bytes.length)
  | _ => throw (.unknown "native write not acknowledged")

omit [Crates] in
def verify (endpoint : Endpoint) (expected : TransferEvidence) : Native TransferEvidence := do
  match ← workerRpc endpoint .verify with
  | .verified actual =>
      let evidence ← portable actual
      if evidence ≠ expected then
        throw (.integrity "private destination differs from transferred content")
      return evidence
  | _ => throw (.unknown "private verification not acknowledged")

omit [Crates] in
def upload (destination : DataEndpoint) (root : Dir) (expected : TransferEvidence) :
    Native TransferEvidence := do
  let endpoint ← mapText .invalid (CurvineCrates.endpoint destination.capability)
  openData root
  let offset ← Prog.loop (stuck .spin id) (writeWorker endpoint) fuel 0
  -- empty payloads still need a concrete allocation file for verification
  if offset = 0 then
    let _ ← workerRpc endpoint (.write 0 [])
  verify endpoint expected

def copy (ctx : OperationContext) (source destination : DataEndpoint) :
    Native TransferEvidence := do
  ctx.validate
  if source.adapter = "local-managed-v1" ∧ destination.adapter = "local-managed-v1" then
    localCopy ctx source destination
  else if source.adapter ∈ viewAdapters ∧ destination.adapter = "local-managed-v1" then
    let root ← tempdir
    let expected ← download fuel source root
    let payload ← payloadEndpoint root
    let actual ← localCopy ctx payload destination
    if actual ≠ expected then throw (.integrity "local archive differs from exact native view")
    return actual
  else if source.adapter = "local-managed-v1" ∧ destination.adapter = "curvine-recall-v1" then
    let root ← tempdir
    let payload ← payloadEndpoint root
    let expected ← localCopy ctx source payload
    upload fuel destination root expected
  else throw (.unsupported "executor endpoint combination")

end CurvineDataMover

namespace CurvineStorage

open Native
open Prog (call caught)

variable [CurvineCrates] {α : Type}

def readNative (kind : String) (data : Json → Except String α) (response : Bytes) : HsmResult α :=
  if response.length > 1024 * 1024 then .error (.unknown "oversized native control response")
  else do
    let value ← mapText .unknown (CurvineCrates.fromSlice response)
    if asStr (field value "kind") = some "error" then
      throw (remoteError ((asStr (field (field value "data") "code")).getD "unknown")
        ((asStr (field (field value "data") "message")).getD "invalid remote error"))
    if asStr (field value "kind") ≠ some kind then
      throw (.unknown "unexpected native control response")
    mapText .unknown (data (field value "data"))

def replied (kind : String) (data : Json → Except String α) (answer : HsmResult Bytes) :
    HsmResult α := answer.bind (readNative kind data)

def nativeCall (request : NativeRequest) (kind : String) (data : Json → Except String α) :
    Native α := do
  let payload ← mapText .invalid (toVec request)
  if payload.length > 64 * 1024 then throw (.invalid "native control request exceeds limit")
  call (.exchange request) (replied kind data)

variable [Crates] (self : CurvineStorage) (fuel : Nat)

/-- The part of `import_file` once no earlier attempt is found. -/
def importFresh (ctx : OperationContext) (path : String) (root : Dir)
    (evidence : TransferEvidence) :
    Native EntityState := do
  let target ← nativeCall (.prepareImport ctx path evidence.length evidence.digest)
    "recall" toRecall
  if target.layoutId = "" ∨ target.destination.adapter ≠ "curvine-recall-v1" then
    throw (.integrity "invalid private import target")
  let _ ← CurvineDataMover.upload fuel target.destination root evidence
  let state ← nativeCall (.commitImport ctx target evidence) "entity" toEntity
  validateState state
  if state.data ≠ target.data ∨ state.length ≠ evidence.length ∨ state.digest ≠ evidence.digest ∨
      state.residency ≠ .online then
    throw (.integrity "native import publication differs from content")
  return state

/-- Create-only import into a fresh protected inode. Parent must already exist. -/
def importFile (ctx : OperationContext) (path : String) (source : DataEndpoint) :
    Native EntityState := do
  ctx.validate
  if ¬ self.capabilities.nativeRecords then throw (.unsupported "native managed import")
  let root ← tempdir
  let payload ← payloadEndpoint root
  let evidence ← localCopy ctx source payload
  match ← nativeCall (.completedImport ctx path evidence.length evidence.digest) "completed"
      toCompleted with
  | some prior =>
      validateState prior
      return prior
  | none => importFresh fuel ctx path root evidence

/-- Read with a committed whole-file pin; close it after all transfer I/O ends. -/
def readToLocal (ctx : OperationContext) (data : DataKey) (destination : DataEndpoint) :
    Native TransferEvidence := do
  ctx.validate
  let view ← nativeCall (.openView ctx data) "view" toView
  if view.data ≠ data ∨ view.source.adapter ∉ viewAdapters then
    throw (.integrity "invalid exact native read view")
  let result ← caught (CurvineDataMover.copy fuel ctx view.source destination)
  let close ← caught (nativeCall (.closeView ctx view) "entity" toEntity)
  let evidence ← result
  let _ ← close
  if evidence.length ≠ view.length ∨ evidence.digest ≠ view.digest then
    throw (.integrity "native read differs from pinned content")
  return evidence

end CurvineStorage

end HsmRs
