import HsmRs.Local.Archive
import HsmRs.Local.Placing
import HsmRs.Local.Storage

/-! # Footprints

Which paths the helpers and the effects write, whatever they are answered. `K` is
a set of named files that are to be left alone.
-/

namespace HsmRs

variable {κ α β : Type}

section

variable {P : FsOp (FileName κ) (Content κ) → Prop} {p : Io κ α} {f : α → Io κ β}

@[simp] theorem within_io {o : FsOp (FileName κ) (Content κ)} {g : o.Ans → Except IoError α} :
    (io o g).run.Within P ↔ P o := by simp [io]

@[simp] theorem within_ask {o : FsOp (FileName κ) (Content κ)} :
    (ask o).run.Within P ↔ P o := by simp [ask]

theorem within_mapErr {g : HsmError → HsmError} (h : p.run.Within P) :
    (mapErr g p).run.Within P := h.bind fun _ => trivial

theorem within_withTransferLock {d : Dir} (h : p.run.Within P) (ha : P (.access d))
    (hl : P (.tryLock d .transferLock)) (hu : P (.unlock d .transferLock)) :
    (withTransferLock d p).run.Within P := by
  refine Prog.within_bind (within_io.mpr ha) fun _ => ?_
  refine Prog.within_bind (p := tryLock d .transferLock _) ⟨hl, fun _ => trivial⟩ fun _ => ?_
  exact h.bind fun _ => ⟨hu, fun _ => trivial⟩

end

/-! ## Locking a root -/

def FsOp.Makes : FsOp (FileName κ) (Content κ) → Prop
  | .existsDir _ | .createDir _ | .syncDir _ | .access _ => True
  | _ => False

def FsOp.Settles : FsOp (FileName κ) (Content κ) → Prop
  | .existsDir _ | .createDir _ | .syncDir _ | .access _ | .tryLock _ _ => True
  | _ => False

theorem FsOp.Makes.settles {o : FsOp (FileName κ) (Content κ)} (h : o.Makes) : o.Settles := by
  cases o with
  | existsDir | createDir | syncDir | access => trivial
  | _ => exact h.elim

theorem FsOp.Settles.spares {K : Dir → FileName κ → Prop} {o : FsOp (FileName κ) (Content κ)}
    (h : o.Settles) : o.Spares K := by
  cases o <;> trivial

section

variable {d : Dir}

theorem makes_missingDirs : (missingDirs d : Io κ _).run.Within FsOp.Makes := by
  induction d with
  | nil => exact Prog.within_bind (within_ask.mpr trivial) fun b => by cases b <;> trivial
  | cons x p ih =>
    refine Prog.within_bind (within_ask.mpr trivial) fun b => ?_
    cases b with
    | true => trivial
    | false => exact Prog.within_bind ih fun _ => trivial

theorem makes_ensureDir : (ensureDir d : Io κ _).run.Within FsOp.Makes := by
  refine ⟨trivial, fun r => ?_⟩
  rcases r with e | ⟨⟩ <;> trivial

theorem makes_createDirAll : (createDirAll d : Io κ _).run.Within FsOp.Makes := by
  induction d with
  | nil => trivial
  | cons x p ih =>
    refine ⟨trivial, fun r => ?_⟩
    rcases r with e | ⟨⟩
    · dsimp only
      split
      · trivial
      · split
        · exact Prog.within_bind ih fun _ => makes_ensureDir
        · trivial
    · trivial

theorem makes_syncParents {ds : List Dir} : (syncParents ds : Io κ _).run.Within FsOp.Makes := by
  induction ds with
  | nil => trivial
  | cons d ds ih =>
    cases d with
    | nil => exact ih
    | cons x p => exact Prog.within_bind (within_io.mpr trivial) fun _ => ih

theorem within_createDirAll : (createDirAll d : Io κ _).run.Within FsOp.Settles :=
  makes_createDirAll.mono fun _ => FsOp.Makes.settles

theorem within_lockRoot : (lockRoot d : Io κ _).run.Within FsOp.Settles := by
  refine Prog.within_bind (makes_missingDirs.mono fun _ => FsOp.Makes.settles) fun _ => ?_
  refine Prog.within_bind within_createDirAll fun _ => ?_
  refine Prog.within_bind (makes_syncParents.mono fun _ => FsOp.Makes.settles) fun _ => ?_
  refine Prog.within_bind (within_io.mpr trivial) fun _ => ?_
  exact ⟨trivial, fun _ => trivial⟩

end

section

variable {K : Dir → FileName κ → Prop} {d : Dir} {n : FileName κ} {v : Content κ}

theorem spares_newLayout : (newLayout d : Io κ String).run.Within (FsOp.Spares K) :=
  Prog.within_bind (within_ask.mpr trivial) fun _ =>
    Prog.within_bind (within_io.mpr trivial) fun _ =>
      Prog.within_bind (within_io.mpr trivial) fun _ => trivial

theorem spares_digestFile [Crates] :
    (digestFile d : Io κ (Nat × ContentDigest)).run.Within (FsOp.Spares K) := by
  refine Prog.within_bind (within_io.mpr trivial) fun c => ?_
  cases c <;> trivial

theorem spares_writeJson (hk : ∀ d n, K d n → Named d n) (h : ¬ K d n) :
    (writeJson d n v).run.Within (FsOp.Spares K) := by
  have tmp : ∀ u, ¬ K d (.tmp u) := fun u hu => hk _ _ hu trivial
  refine Prog.within_bind (within_ask.mpr trivial) fun u => ?_
  refine Prog.within_bind (within_io.mpr (tmp u)) fun _ => ?_
  refine Prog.within_bind (within_io.mpr trivial) fun _ => ?_
  refine Prog.within_bind (within_io.mpr ⟨tmp u, h⟩) fun _ => ?_
  exact within_mapErr (within_io.mpr trivial)

theorem spares_createDirAll : (createDirAll d : Io κ _).run.Within (FsOp.Spares K) :=
  within_createDirAll.mono fun _ => FsOp.Settles.spares

theorem spares_lockRoot : (lockRoot d : Io κ _).run.Within (FsOp.Spares K) :=
  within_lockRoot.mono fun _ => FsOp.Settles.spares

theorem spares_withTransferLock {p : Io κ α} (h : p.run.Within (FsOp.Spares K)) :
    (withTransferLock d p).run.Within (FsOp.Spares K) :=
  within_withTransferLock h trivial trivial trivial

end

/-! ## Local storage -/

namespace LocalStorage

variable {K : Dir → FileName κ → Prop} {root : Dir} {ctx : OperationContext} {st : State κ}

theorem spares_prepareArchiveEffect [Crates] {data : DataKey} :
    (prepareArchiveEffect root ctx data st).run.Within (FsOp.Spares K) := by
  refine Prog.within_bind trivial fun e => Prog.within_bind trivial fun layout => ?_
  refine Prog.within_guard ?_
  exact Prog.within_bind (within_ask.mpr trivial) fun _ => trivial

theorem spares_commitArchiveEffect [Crates] {view : DataView} {receipt : ArchiveReceipt} :
    (commitArchiveEffect ctx view receipt st).run.Within (FsOp.Spares K) := by
  refine Prog.within_bind trivial fun owner => Prog.within_guard ?_
  exact Prog.within_bind trivial fun source => spares_withTransferLock trivial

theorem spares_releaseEffect {expected : EntityState} :
    (releaseEffect root ctx expected st).run.Within (FsOp.Spares K) :=
  Prog.within_bind trivial fun _ => spares_withTransferLock trivial

theorem spares_prepareRecallEffect [Crates] {expected : EntityState} {anchor : ArchiveReceipt} :
    (prepareRecallEffect root ctx expected anchor st).run.Within (FsOp.Spares K) :=
  Prog.within_bind trivial fun _ => Prog.within_bind spares_newLayout fun _ => trivial

theorem spares_commitRecallEffect [Crates] {target : RecallTarget} {evidence : TransferEvidence}
    (hk : ∀ d n, K d n → Named d n) (h : ¬ K (layoutDir root target.layoutId) .sealed) :
    (commitRecallEffect root ctx target evidence st).run.Within (FsOp.Spares K) := by
  refine Prog.within_bind trivial fun owner => Prog.within_guard ?_
  refine Prog.within_bind trivial fun destination => Prog.within_guard ?_
  refine spares_withTransferLock ?_
  refine Prog.within_bind spares_digestFile fun x => ?_
  refine Prog.within_bind trivial fun _ => ?_
  refine Prog.within_bind (within_io.mpr trivial) fun _ => ?_
  refine Prog.within_bind (within_io.mpr trivial) fun _ => ?_
  exact Prog.within_bind (spares_writeJson hk h) fun _ => trivial

theorem spares_importLayout [Crates] {bytes : Bytes} (hk : ∀ d n, K d n → Named d n)
    (h : ∀ u n, ¬ K (layoutDir root u) n) :
    (importLayout root bytes : Io κ _).run.Within (FsOp.Spares K) := by
  refine Prog.within_bind spares_newLayout fun u => ?_
  refine Prog.within_bind (within_io.mpr (h u _)) fun _ => ?_
  refine Prog.within_bind (within_io.mpr trivial) fun _ => ?_
  refine Prog.within_bind (within_io.mpr trivial) fun _ => ?_
  refine Prog.within_bind spares_digestFile fun _ => ?_
  exact Prog.within_bind (spares_writeJson hk (h u _)) fun _ => trivial

theorem spares_sweep {layouts : List String}
    (h : ∀ layout ∈ layouts, ∀ d n, K d n → ¬ layoutDir root layout <:+ d) :
    (sweep root layouts : Io κ Nat).run.Within (FsOp.Spares K) := by
  induction layouts with
  | nil => trivial
  | cons layout rest ih =>
    have hr := ih fun l hl => h l (List.mem_cons_of_mem _ hl)
    refine Prog.within_bind (within_ask.mpr trivial) fun b => ?_
    have last : (do return (← sweep root rest) + 1 : Io κ Nat).run.Within (FsOp.Spares K) :=
      Prog.within_bind hr fun _ => trivial
    cases b with
    | false => exact last
    | true =>
      have hd : (removeDirAll (layoutDir root layout) : Io κ Unit).run.Within (FsOp.Spares K) :=
        within_io.mpr (h layout List.mem_cons_self)
      exact Prog.within_bind (spares_withTransferLock hd) fun _ => last

end LocalStorage

/-! ## The local archive -/

namespace LocalArchive

variable [KeyHash κ] [Crates] {P : FsOp (FileName κ) (Content κ) → Prop} {self : LocalArchive}
  {archive : ArchiveKey}

theorem within_lookup (record : ∀ k, P (.read (objectsDir self.root) (.hashed k)))
    (payload : ∀ d, P (.read d .data)) (syncFile : ∀ d, P (.syncFile d .data))
    (syncDir : ∀ d, P (.syncDir d)) : (self.committed archive : Io κ _).run.Within P := by
  refine Prog.within_check.mpr fun n hn => ?_
  unfold receiptPath at hn
  split at hn
  · cases hn
  cases hn
  refine Prog.within_bind ⟨record _, fun x => ?_⟩ fun c => ?_
  · cases x <;> trivial
  cases c with
  | none => trivial
  | some content =>
    refine Prog.within_bind ?_ fun value => Prog.within_guard ?_
    · unfold decode
      split <;> trivial
    refine Prog.within_bind trivial fun e => Prog.within_bind ?_ fun x => Prog.within_guard ?_
    · refine Prog.within_bind (within_io.mpr (payload _)) fun c => ?_
      cases c <;> trivial
    refine Prog.within_bind (within_io.mpr (syncFile _)) fun _ => ?_
    refine Prog.within_bind (within_io.mpr (syncDir _)) fun _ => ?_
    exact Prog.within_bind (within_io.mpr (syncDir _)) fun _ => trivial

theorem within_committed (read : ∀ d n, P (.read d n)) (syncFile : ∀ d n, P (.syncFile d n))
    (syncDir : ∀ d, P (.syncDir d)) : (self.committed archive : Io κ _).run.Within P :=
  within_lookup (fun _ => read _ _) (fun d => read d _) (fun d => syncFile d _) syncDir

theorem within_inspect (read : ∀ d n, P (.read d n)) (syncFile : ∀ d n, P (.syncFile d n))
    (syncDir : ∀ d, P (.syncDir d)) : (self.inspect archive : Io κ _).run.Within P :=
  Prog.within_bind (within_committed read syncFile syncDir) fun c => by cases c <;> trivial

end LocalArchive

end HsmRs
