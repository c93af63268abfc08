import HsmRs.Curvine.Hashing

/-! # Copying the current file

A copy of what a path names at the moment, without a pin. The reader is completed whatever
happens, and the destination is not touched before the source has been seen unchanged. The
client, the local files and the local data mover may answer anything.
-/

namespace HsmRs

structure FileStatus where
  id : Int
  len : Int
  isDir : Bool
  isComplete : Bool
  mtime : Int

structure ReaderStatus where
  id : Int
  len : Int

/-- What the copy asks of its surroundings. `spin` is a loop that goes on. -/
inductive CurrentOp
  | getStatus (path : String)
  | tempdir
  | createData (root : Dir)
  | openReader (path : String)
  | read
  | writeAll (bytes : Bytes)
  | syncAll
  | completeReader
  | canonicalize (root : Dir)
  | localCopy (ctx : OperationContext) (source destination : DataEndpoint)
  | spin

abbrev CurrentOp.Ans : CurrentOp → Type
  | getStatus _ => Except String FileStatus
  | tempdir | canonicalize _ => Except IoError Dir
  | createData _ | writeAll _ | syncAll => Except IoError Unit
  | openReader _ => Except String ReaderStatus
  | read => Except String Bytes
  | completeReader => Except String Unit
  | localCopy _ _ _ => HsmResult TransferEvidence
  | spin => Empty

abbrev currentSig : Sig := ⟨CurrentOp, CurrentOp.Ans⟩

abbrev Current (α : Type) := ExceptT HsmError (Prog currentSig) α

def ioError {α : Type} (r : Except String α) : HsmResult α :=
  r.mapError fun e => .unknown ("native Curvine I/O: " ++ e)

namespace Current

open Prog (call)

def getStatus (path : String) : Current FileStatus := call (.getStatus path) ioError
def openReader (path : String) : Current ReaderStatus := call (.openReader path) ioError
def completeReader : Current Unit := call .completeReader ioError

end Current

structure CurvineIo where
  shortCircuit : Bool

namespace CurvineIo

open Current
open Prog (call caught stuck)

def readBuffer (len : Nat) (received : Received) : Current (Received ⊕ Received) := do
  let bytes ← call .read ioError
  if bytes = [] then return .inr received
  call (.writeAll bytes) (Except.mapError .io)
  if (received.update bytes).length > len then
    throw (.conflict "Curvine source grew while reading")
  return .inl (received.update bytes)

def readSource (fuel len : Nat) : Current Received := do
  let received ← Prog.loop (stuck .spin id) (readBuffer len) fuel .empty
  call .syncAll (Except.mapError .io)
  return received

variable [Crates] (self : CurvineIo) (fuel : Nat)

def copySpool (ctx : OperationContext) (path : String) (destination : DataEndpoint)
    (initial : FileStatus) (spool : Dir) (received : Received) : Current TransferEvidence := do
  let current ← getStatus path
  if received.length ≠ initial.len.toNat ∨ current.id ≠ initial.id ∨ current.len ≠ initial.len ∨
      current.mtime ≠ initial.mtime then
    throw (.conflict "Curvine current file changed during copy")
  let root ← call (.canonicalize spool) (Except.mapError .io)
  let result ← call (.localCopy ctx (endpoint root) destination) fun x => x
  if result.length ≠ received.length ∨ result.digest.algorithm ≠ "blake3" ∨
      result.digest.value ≠ Crates.blake3 received.hashed then
    throw (.integrity "native read and local transfer evidence differ")
  return result

/-- Copy a current completed file to a local destination. -/
def copyCurrentFileToLocal (ctx : OperationContext) (path : String) (destination : DataEndpoint) :
    Current TransferEvidence := do
  ctx.validate
  if self.shortCircuit then
    throw (.unsupported "disable short_circuit for the native copy bridge")
  let initial ← getStatus path
  if initial.isDir ∨ ¬ initial.isComplete ∨ initial.id ≤ 0 ∨ initial.len < 0 then
    throw (.invalid "copy requires a completed native regular file")
  let spool ← call .tempdir (Except.mapError .io)
  call (.createData spool) (Except.mapError .io)
  let reader ← openReader path
  if reader.id ≠ initial.id ∨ reader.len ≠ initial.len then
    let _ ← caught completeReader
    throw (.conflict "Curvine source changed before opening")
  let result ← caught (readSource fuel initial.len.toNat)
  let close ← caught completeReader
  let received ← result
  close
  copySpool ctx path destination initial spool received

end CurvineIo

/-! ## What has happened -/

def IsOpening : Event currentSig → Bool
  | ⟨.openReader _, .ok _⟩ => true
  | _ => false

def IsCompletion : Event currentSig → Bool
  | ⟨.completeReader, _⟩ => true
  | _ => false

def Owed (calls : List (Event currentSig)) (n : Nat) : Prop :=
  calls.countP IsOpening = calls.countP IsCompletion + n

def buffers (chunks : List Bytes) : List (Event currentSig) :=
  chunks.flatMap fun c => [⟨.read, .ok c⟩, ⟨.writeAll c, .ok ()⟩]

def prelude (path : String) (initial : FileStatus) (spool : Dir) (reader : ReaderStatus) :
    List (Event currentSig) :=
  [⟨.getStatus path, .ok initial⟩, ⟨.tempdir, .ok spool⟩, ⟨.createData spool, .ok ()⟩,
    ⟨.openReader path, .ok reader⟩]

structure FileStatus.Regular (self : FileStatus) : Prop where
  file : self.isDir = false
  complete : self.isComplete = true
  id : 0 < self.id
  len : 0 ≤ self.len

/-- The file has been opened as it was found, and the chunks have gone to the spool. -/
inductive Spooled (path : String) (initial : FileStatus) (spool : Dir) (chunks : List Bytes) :
    List (Event currentSig) → Prop
  | intro (reader : ReaderStatus) (regular : initial.Regular) (id : reader.id = initial.id)
      (len : reader.len = initial.len) (within : chunks.flatten.length ≤ initial.len.toNat) :
      Spooled path initial spool chunks (prelude path initial spool reader ++ buffers chunks)

/-- The file has been read to its end into the spool, and the reader has been completed. -/
inductive SpooledWhole (path : String) (initial : FileStatus) (spool : Dir) (chunks : List Bytes) :
    List (Event currentSig) → Prop
  | intro {past : List (Event currentSig)} (spooled : Spooled path initial spool chunks past) :
      SpooledWhole path initial spool chunks
        (past ++ [⟨.read, .ok []⟩] ++ [⟨.syncAll, .ok ()⟩] ++ [⟨.completeReader, .ok ()⟩])

/-- The file has been spooled, all of it, and is then still what was found at first. -/
inductive Unchanged (path : String) (initial : FileStatus) (root : Dir) (chunks : List Bytes) :
    List (Event currentSig) → Prop
  | intro {past : List (Event currentSig)} {spool : Dir} {current : FileStatus}
      (whole : SpooledWhole path initial spool chunks past)
      (length : chunks.flatten.length = initial.len.toNat) (id : current.id = initial.id)
      (len : current.len = initial.len) (mtime : current.mtime = initial.mtime) :
      Unchanged path initial root chunks
        (past ++ [⟨.getStatus path, .ok current⟩] ++ [⟨.canonicalize spool, .ok root⟩])

section

variable [Crates] (ctx : OperationContext) (path : String) (destination : DataEndpoint)

/-- What the copy may do, and after what: a reader is completed only while it is open, and the
destination is written only from the spool of a file that has not changed. -/
def CurrentAsks (past : List (Event currentSig)) : CurrentOp → Prop
  | .completeReader => Owed past 1
  | .localCopy ctx' source destination' => ctx' = ctx ∧ destination' = destination ∧
      ∃ initial root chunks, source = endpoint root ∧ Unchanged path initial root chunks past
  | _ => True

/-- How the copy ends: no reader is left open, and a success is the evidence of the bytes that
have been read, as the local copy has confirmed it. -/
def CurrentEnds (calls : List (Event currentSig)) : HsmResult TransferEvidence → Prop
  | .ok evidence => Owed calls 0 ∧ ∃ past initial root chunks,
      Unchanged path initial root chunks past ∧ evidence = evidenceOf chunks.flatten ∧
        calls = past ++ [⟨.localCopy ctx (endpoint root) destination, .ok evidence⟩]
  | .error _ => Owed calls 0

end

section

variable {path : String} {initial : FileStatus} {spool : Dir} {chunks : List Bytes} {n : Nat}
  {past : List (Event currentSig)} {e : Event currentSig} {received : Received}

theorem Owed.quiet (h : Owed past n) (ho : IsOpening e = false) (hc : IsCompletion e = false) :
    Owed (past ++ [e]) n := by
  simpa [Owed, List.countP_append, List.countP_cons, ho, hc] using h

theorem Owed.completes {x : Except String Unit} (h : Owed past 1) :
    Owed (past ++ [⟨.completeReader, x⟩]) 0 := by
  have hc : IsCompletion ⟨.completeReader, x⟩ = true := rfl
  have ho : IsOpening ⟨.completeReader, x⟩ = false := rfl
  simpa [Owed, List.countP_append, List.countP_cons, ho, hc] using h

theorem countP_buffers : (buffers chunks).countP IsOpening = 0 ∧
    (buffers chunks).countP IsCompletion = 0 := by
  induction chunks with
  | nil => exact ⟨rfl, rfl⟩
  | cons c chunks ih => exact ih

theorem Spooled.held (h : Spooled path initial spool chunks past) : Owed past 1 := by
  obtain ⟨reader, -, -, -, -⟩ := h
  rw [Owed, List.countP_append, List.countP_append, countP_buffers.1, countP_buffers.2]
  rfl

theorem Spooled.buffer {chunk : Bytes} (h : Spooled path initial spool chunks past)
    (within : (chunks ++ [chunk]).flatten.length ≤ initial.len.toNat) :
    Spooled path initial spool (chunks ++ [chunk])
      (past ++ [⟨.read, .ok chunk⟩] ++ [⟨.writeAll chunk, .ok ()⟩]) := by
  obtain ⟨reader, regular, id, len, -⟩ := h
  have next : Spooled path initial spool (chunks ++ [chunk]) (prelude path initial spool reader ++
      buffers (chunks ++ [chunk])) := .intro reader regular id len within
  simpa [buffers] using next

variable [Crates] {ctx : OperationContext} {destination : DataEndpoint} {fuel : Nat}

theorem traces_readBuffer (h : Spooled path initial spool chunks past)
    (hr : received.Holds chunks) :
    (CurvineIo.readBuffer initial.len.toNat received).run.Traces (CurrentAsks ctx path destination)
      (fun r past' => match r with
        | .ok (.inl received) => ∃ chunks, Spooled path initial spool chunks past' ∧
            received.Holds chunks
        | .ok (.inr same) => past' = past ++ [⟨.read, .ok []⟩] ∧ same = received
        | .error _ => Owed past' 1) past := by
  refine Prog.traces_call.mpr ⟨trivial, fun x => ?_⟩
  have held := h.held.quiet (e := ⟨.read, x⟩) rfl rfl
  cases x with
  | error e => exact held
  | ok bytes =>
    dsimp only [ioError, Except.mapError]
    by_cases hb : bytes = []
    · rw [if_pos hb]
      exact Prog.traces_ret.mpr ⟨by rw [hb], rfl⟩
    · rw [if_neg hb]
      refine Prog.traces_call.mpr ⟨trivial, fun x => ?_⟩
      have held := held.quiet (e := ⟨.writeAll bytes, x⟩) rfl rfl
      cases x with
      | error e => exact held
      | ok _ =>
        refine Prog.traces_guard.mpr ⟨fun _ => held, fun small => Prog.traces_ret.mpr ?_⟩
        have hr : (received.update bytes).Holds (chunks ++ [bytes]) := hr.update
        refine ⟨chunks ++ [bytes], h.buffer ?_, hr⟩
        rw [← hr.length]
        exact Nat.le_of_not_lt small

theorem traces_spool (h : Spooled path initial spool [] past) :
    (CurvineIo.readSource fuel initial.len.toNat).run.Traces (CurrentAsks ctx path destination)
      (fun r past' => match r with
        | .ok received => ∃ past chunks, Spooled path initial spool chunks past ∧
            received.Holds chunks ∧ past' = past ++ [⟨.read, .ok []⟩] ++ [⟨.syncAll, .ok ()⟩]
        | .error _ => Owed past' 1) past := by
  refine Prog.traces_run_bind.mpr (Prog.traces_loop (I := fun _ received past =>
    ∃ chunks, Spooled path initial spool chunks past ∧ received.Holds chunks) ?_ ?_
      ⟨[], h, rfl, rfl⟩)
  · exact fun _ _ _ => Prog.traces_op.mpr ⟨trivial, nofun⟩
  · rintro _ received past ⟨chunks, h, hr⟩
    refine (traces_readBuffer h hr).mono (fun _ _ h => h) ?_
    rintro (e | received | same) past' hp
    · exact hp
    · exact hp
    · obtain ⟨rfl, rfl⟩ := hp
      refine Prog.traces_call.mpr ⟨trivial, fun x => ?_⟩
      have held := (h.held.quiet (e := ⟨.read, .ok []⟩) rfl rfl).quiet (e := ⟨.syncAll, x⟩) rfl rfl
      cases x with
      | error e => exact held
      | ok _ => exact Prog.traces_ret.mpr ⟨past, chunks, h, hr, rfl⟩

omit [Crates] in
theorem SpooledWhole.held (h : SpooledWhole path initial spool chunks past) : Owed past 0 := by
  obtain ⟨h⟩ := h
  exact ((h.held.quiet rfl rfl).quiet rfl rfl).completes

theorem traces_copySpool (h : SpooledWhole path initial spool chunks past)
    (hr : received.Holds chunks) :
    (CurvineIo.copySpool ctx path destination initial spool received).run.Traces
      (CurrentAsks ctx path destination)
      (fun r calls => CurrentEnds ctx path destination calls r) past := by
  refine Prog.traces_call.mpr ⟨trivial, fun x => ?_⟩
  have held := h.held.quiet (e := ⟨.getStatus path, x⟩) rfl rfl
  cases x with
  | error e => exact held
  | ok current =>
    refine Prog.traces_guard.mpr ⟨fun _ => held, fun same => ?_⟩
    simp only [not_or, not_not] at same
    obtain ⟨length, id, len, mtime⟩ := same
    refine Prog.traces_call.mpr ⟨trivial, fun x => ?_⟩
    have held := held.quiet (e := ⟨.canonicalize spool, x⟩) rfl rfl
    cases x with
    | error e => exact held
    | ok root =>
      have unchanged : Unchanged path initial root chunks
          (past ++ [⟨.getStatus path, .ok current⟩] ++ [⟨.canonicalize spool, .ok root⟩]) :=
        .intro h (hr.length ▸ length) id len mtime
      refine Prog.traces_call.mpr ⟨⟨rfl, rfl, initial, root, chunks, rfl, unchanged⟩, fun x => ?_⟩
      have held := held.quiet (e := ⟨.localCopy ctx (endpoint root) destination, x⟩) rfl rfl
      cases x with
      | error e => exact held
      | ok result =>
        refine Prog.traces_guard.mpr ⟨fun _ => held, fun same => Prog.traces_ret.mpr ?_⟩
        simp only [not_or, not_not] at same
        obtain ⟨length, algorithm, value⟩ := same
        refine ⟨held, _, initial, root, chunks, unchanged, ?_, rfl⟩
        rw [← hr.evidence, Received.evidence, ← length, digestOf, ← value, ← algorithm]

theorem traces_copyCurrent {self : CurvineIo} :
    (self.copyCurrentFileToLocal fuel ctx path destination).run.Traces
      (CurrentAsks ctx path destination)
      (fun r calls => CurrentEnds ctx path destination calls r) [] := by
  have start : Owed [] 0 := rfl
  refine Prog.traces_check.mpr ?_
  cases ctx.validate with
  | error e => exact start
  | ok _ =>
  refine Prog.traces_guard.mpr ⟨fun _ => start, fun _ => ?_⟩
  refine Prog.traces_call.mpr ⟨trivial, fun x => ?_⟩
  have held := start.quiet (e := ⟨.getStatus path, x⟩) rfl rfl
  cases x with
  | error e => exact held
  | ok initial =>
  refine Prog.traces_guard.mpr ⟨fun _ => held, fun found => ?_⟩
  simp only [not_or, not_le, not_lt, Bool.not_eq_true] at found
  obtain ⟨file, complete, id, len⟩ := found
  refine Prog.traces_call.mpr ⟨trivial, fun x => ?_⟩
  have held := held.quiet (e := ⟨.tempdir, x⟩) rfl rfl
  cases x with
  | error e => exact held
  | ok spool =>
  refine Prog.traces_call.mpr ⟨trivial, fun x => ?_⟩
  have held := held.quiet (e := ⟨.createData spool, x⟩) rfl rfl
  cases x with
  | error e => exact held
  | ok _ =>
  refine Prog.traces_call.mpr ⟨trivial, fun x => ?_⟩
  cases x with
  | error e => exact held.quiet (e := ⟨.openReader path, .error e⟩) rfl rfl
  | ok reader =>
  have opened : Owed ([] ++ [⟨.getStatus path, .ok initial⟩] ++ [⟨.tempdir, .ok spool⟩] ++
      [⟨.createData spool, .ok ()⟩] ++ [⟨.openReader path, .ok reader⟩]) 1 := rfl
  dsimp only [ioError, Except.mapError]
  split
  · refine Prog.traces_caught.mpr (Prog.traces_op.mpr ⟨opened, fun x => Prog.traces_ret.mpr ?_⟩)
    exact Prog.traces_ret.mpr opened.completes
  · rename_i same
    rw [not_or, not_not, not_not] at same
    have spooled : Spooled path initial spool []
      (prelude path initial spool reader ++ buffers []) :=
      .intro reader ⟨file, by simpa using complete, id, len⟩ same.1 same.2 (Nat.zero_le _)
    refine Prog.traces_caught.mpr ((traces_spool spooled).mono (fun _ _ h => h) ?_)
    rintro (e | received) past' h
    · refine Prog.traces_caught.mpr (Prog.traces_op.mpr ⟨h, fun x => Prog.traces_ret.mpr ?_⟩)
      exact Prog.traces_ret.mpr h.completes
    · obtain ⟨past, chunks, h, hr, rfl⟩ := h
      have held := (h.held.quiet (e := ⟨.read, .ok []⟩) rfl rfl).quiet
        (e := ⟨.syncAll, .ok ()⟩) rfl rfl
      refine Prog.traces_caught.mpr (Prog.traces_op.mpr ⟨held, fun x => Prog.traces_ret.mpr ?_⟩)
      cases x with
      | error e => exact Prog.traces_ret.mpr held.completes
      | ok _ => exact traces_copySpool (.intro h) hr

/-- The reader is completed exactly once if it has been opened, never before it has been, and in
every case. The destination is written only from the spool of a file that has been read to its
end and has not changed, and a success is the evidence of what has been read. -/
theorem copy_current_sound (self : CurvineIo) (fuel : Nat) (ctx : OperationContext) (path : String)
    (destination : DataEndpoint) :
    (∀ past o, (self.copyCurrentFileToLocal fuel ctx path destination).Makes past o →
      CurrentAsks ctx path destination past o) ∧
    ∀ calls r, (self.copyCurrentFileToLocal fuel ctx path destination).Ends calls r →
      CurrentEnds ctx path destination calls r :=
  ⟨fun _ _ h => traces_copyCurrent.makes h, fun _ _ h => traces_copyCurrent.ends h⟩

end

end HsmRs
