import HsmRs.Lib.Frame
import HsmRs.Local.Metadata

/-! # File system helpers of the local adapters

The functions of `util.rs` as fallible programs over the file system. A `?` in
the source is a bind here, a lock guard is released when its scope ends. Roots
are canonical UTF-8 paths, so encoding an endpoint does not fail.
-/

namespace HsmRs

variable {κ α : Type}

abbrev LocalSig (κ : Type) : Sig := fsSig (FileName κ) (Content κ)

abbrev Io (κ α : Type) := ExceptT HsmError (Prog (LocalSig κ)) α

/-- One operation, its I/O error turned into the error of the interface. -/
def io (o : FsOp (FileName κ) (Content κ)) (result : o.Ans → Except IoError α) : Io κ α :=
  ExceptT.mk (.op o fun x => .ret ((result x).mapError .io))

def ask (o : FsOp (FileName κ) (Content κ)) : Io κ o.Ans :=
  ExceptT.mk (.op o fun x => .ret (.ok x))

def existsDir (d : Dir) : Io κ Bool := ask (.existsDir d)
def existsFile (d : Dir) (n : FileName κ) : Io κ Bool := ask (.existsFile d n)
def uuid : Io κ String := ask .uuid
def readFile (d : Dir) (n : FileName κ) : Io κ (Content κ) := io (.read d n) id
def createDir (d : Dir) : Io κ Unit := io (.createDir d) id
def createNew (d : Dir) (n : FileName κ) (c : Content κ) : Io κ Unit := io (.create d n c) id
def syncFile (d : Dir) (n : FileName κ) : Io κ Unit := io (.syncFile d n) id
def syncDir (d : Dir) : Io κ Unit := io (.syncDir d) id
def rename (d : Dir) (a b : FileName κ) : Io κ Unit := io (.rename d a b) id
def hardLink (d : Dir) (a b : FileName κ) : Io κ Unit := io (.hardLink d a b) id
def removeDirAll (d : Dir) : Io κ Unit := io (.removeDirAll d) id
/-- Open something in `d`: a lock file, or a transfer backend. -/
def access (d : Dir) : Io κ Unit := io (.access d) id

/-- `let _ = fs::remove_file(..)`: the answer is dropped. -/
def removeFile (d : Dir) (n : FileName κ) : Io κ Unit :=
  ExceptT.mk (.op (.removeFile d n) fun _ => .ret (.ok ()))

def mapErr (f : HsmError → HsmError) (p : Io κ α) : Io κ α :=
  ExceptT.mk (p.run >>= fun r => .ret (r.mapError f))

/-- Where a payload lives: the endpoint of the `data` file under `root`. -/
def endpoint [Crates] (root : Dir) : DataEndpoint :=
  ⟨"local-managed-v1", Crates.toVec ⟨true, root, "data"⟩⟩

def decodeEndpoint [Crates] (value : DataEndpoint) : HsmResult LocalEndpoint :=
  if value.adapter ≠ "local-managed-v1" then .error (.unsupported value.adapter)
  else match Crates.fromSlice value.capability with
    | .error e => .error (.integrity e)
    | .ok e =>
        if ¬ e.isAbsolute ∨ e.path ≠ "data" then .error (.invalid "invalid local capability")
        else .ok e

@[simp] theorem decodeEndpoint_endpoint [Crates] (root : Dir) :
    decodeEndpoint (endpoint root) = .ok ⟨true, root, "data"⟩ := by
  simp [decodeEndpoint, endpoint, Crates.fromSlice_toVec]

theorem endpoint_injective [Crates] {a b : Dir} (h : endpoint a = endpoint b) : a = b := by
  have hd := congrArg decodeEndpoint h
  simpa using hd

/-- Read a JSON file as a value of the expected shape. -/
def decode (shape : Content κ → Option α) (c : Content κ) : Io κ α :=
  match shape c with
  | some a => pure a
  | none => throw (.integrity "unexpected JSON value")

/-- The loop of `lock_root` that climbs to the first existing ancestor. -/
def missingDirs : Dir → Io κ (List Dir)
  | [] => do
      if ← existsDir [] then return []
      else throw (.invalid "root ancestor")
  | x :: p => do
      if ← existsDir (x :: p) then return []
      else return (x :: p) :: (← missingDirs p)

/-- `fs::create_dir` of `fs::create_dir_all`, where an existing directory is no error. -/
def ensureDir (d : Dir) : Io κ Unit :=
  ExceptT.mk (.op (.createDir d) fun
    | .ok () => .ret (.ok ())
    | .error e => .ret (if e.kind = .alreadyExists then .ok () else .error (.io e)))

def createDirAll : Dir → Io κ Unit
  | [] => pure ()
  | x :: p => ExceptT.mk (.op (.createDir (x :: p)) fun
      | .ok () => .ret (.ok ())
      | .error e =>
          if e.kind = .alreadyExists then .ret (.ok ())
          else if e.kind = .notFound then (createDirAll p >>= fun _ => ensureDir (x :: p)).run
          else .ret (.error (.io e)))

def syncParents : List Dir → Io κ Unit
  | [] => pure ()
  | [] :: ds => syncParents ds
  | (_ :: p) :: ds => do
      syncDir p
      syncParents ds

/-- Take the lock of file `n` in `d`, which is held by nobody else. -/
def tryLock (d : Dir) (n : FileName κ) (message : String) : Io κ Unit :=
  ExceptT.mk (.op (.tryLock d n) fun r =>
    .ret (r.mapError fun e => .busy (message ++ e.text)))

def lockRoot (root : Dir) : Io κ Unit := do
  let missing ← missingDirs root
  createDirAll root
  syncParents missing.reverse
  access root
  tryLock root .ownerLock "local Adapter root is already owned: "

/-- `let _session = transfer_lock(root)?` and the scope it guards. -/
def withTransferLock (root : Dir) (body : Io κ α) : Io κ α := do
  access root
  tryLock root .transferLock "local data session active: "
  ExceptT.mk do
    let r ← body.run
    .op (.unlock root .transferLock) fun _ => .ret r

/-- Create a private directory under a fresh name and return the name. -/
def newLayout (parent : Dir) : Io κ String := do
  let u ← uuid
  createDir (u :: parent)
  syncDir parent
  return u

def digestOf [Crates] (b : Bytes) : ContentDigest := ⟨"blake3", Crates.blake3 b⟩

/-- Length and digest of a payload. Payload files only ever hold bytes. -/
def digestFile [Crates] (d : Dir) : Io κ (Nat × ContentDigest) := do
  match ← readFile d .data with
  | .bytes b => return (b.length, digestOf b)
  | _ => throw (.io ⟨.other, "not a payload file"⟩)

/-- Atomically replaces native metadata, then syncs the containing directory. -/
def writeJson (d : Dir) (n : FileName κ) (value : Content κ) : Io κ Unit := do
  let u ← uuid
  createNew d (.tmp u) value
  syncFile d (.tmp u)
  rename d (.tmp u) n
  mapErr (fun e => .unknown ("metadata renamed but directory sync failed: " ++ e.display))
    (syncDir d)

/-- Publish a create-only receipt from an already synced temp inode. -/
def publishReceipt (d : Dir) (n : FileName κ) (value : Content κ) : Io κ Unit := do
  let u ← uuid
  createNew d (.receiptTmp u) value
  syncFile d (.receiptTmp u)
  hardLink d (.receiptTmp u) n
  mapErr (fun e => .unknown ("receipt published but directory sync failed: " ++ e.display))
    (syncDir d)
  removeFile d (.receiptTmp u)

end HsmRs
