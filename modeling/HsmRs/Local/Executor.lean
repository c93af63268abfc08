import HsmRs.Local.Util

/-! # Local data mover

One transfer between two private roots, under the session locks of both. The
transfer itself is an operation of the file system.
-/

namespace HsmRs

variable {κ : Type}

def transfer (src dst : Dir) : Io κ Unit :=
  ExceptT.mk (.op (.transfer src dst .data) fun r =>
    .ret (r.mapError fun e => .unknown ("data transfer: " ++ e.text)))

def connectBackend (root : Dir) : Io κ Unit :=
  ExceptT.mk (.op (.access root) fun r => .ret (r.mapError fun e => .invalid e.text))

namespace LocalDataMover

def copy [Crates] (ctx : OperationContext) (source destination : DataEndpoint) :
    Io κ TransferEvidence := do
  ctx.validate
  let source ← decodeEndpoint source
  let destination ← decodeEndpoint destination
  if source.root = destination.root then
    throw (.invalid "source and destination must be distinct")
  withTransferLock source.root do
    withTransferLock destination.root do
      if ← existsFile destination.root .sealed then throw .fenced
      connectBackend source.root
      connectBackend destination.root
      transfer source.root destination.root
      -- independent complete read-back
      let (length, digest) ← digestFile destination.root
      return ⟨length, digest⟩

end LocalDataMover

end HsmRs
