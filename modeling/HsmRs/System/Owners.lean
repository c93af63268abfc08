import HsmRs.Archive.Calls
import HsmRs.Lib.Pool
import HsmRs.Local.Adapters
import HsmRs.Local.Footprint
import HsmRs.Local.Reference
import HsmRs.Storage.Calls

/-! # Owners of roots

Stores and archives are opened, used, dropped and killed by any number of processes that
take turns at single operations on one file system. A root has at most one owner at a
time, and only the owner reads and writes its records.
-/

namespace HsmRs

variable {κ : Type}

/-- The root to which a metadata file, an identity, a receipt or an attempt belongs. -/
def rootOf (d : Dir) : FileName κ → Option Dir
  | .state | .backendId => some d
  | .hashed _ => some d.tail
  | _ => none

/-- The file belongs to nobody, or to the owner of a root in `g`. -/
def Entitled (g : Dir → Prop) (d : Dir) (n : FileName κ) : Prop := ∀ r, rootOf d n = some r → g r

/-- The operation names the file. -/
def FsOp.Accesses (d : Dir) (n : FileName κ) : FsOp (FileName κ) (Content κ) → Prop
  | .existsFile d' n' | .read d' n' | .create d' n' _ | .syncFile d' n' | .removeFile d' n' =>
      d' = d ∧ n' = n
  | .rename d' a b | .hardLink d' a b => d' = d ∧ (a = n ∨ b = n)
  | .transfer src dst n' => (src = d ∨ dst = d) ∧ n' = n
  | _ => False

/-- What the owner of the roots `g` may do, where it may give up the owner locks of `gives`. It
locks a root when it has none. -/
def FsOp.Granted (g gives : Dir → Prop) : FsOp (FileName κ) (Content κ) → Prop
  | .existsFile d n | .read d n | .create d n _ | .syncFile d n | .removeFile d n => Entitled g d n
  | .rename d a b | .hardLink d a b => Entitled g d a ∧ Entitled g d b
  | .transfer src dst n => rootOf src n = none ∧ rootOf dst n = none
  | .removeDirAll d => ∃ r layout, g r ∧ d = layoutDir r layout
  | .tryLock _ n => n = .ownerLock → ∀ r, ¬ g r
  | .unlock d n => n = .ownerLock → gives d
  | _ => True

/-- What those who own nothing and lock no root do. -/
def FsOp.Modest (o : FsOp (FileName κ) (Content κ)) : Prop :=
  o.Granted (fun _ => False) (fun _ => False) ∧ ∀ d, o ≠ .tryLock d .ownerLock

/-- What the owner of `root` does as long as it keeps it. -/
abbrev FsOp.Steady (root : Dir) : FsOp (FileName κ) (Content κ) → Prop :=
  Granted (· = root) fun _ => False

section

variable {g gives gives' : Dir → Prop} {o : FsOp (FileName κ) (Content κ)}
  {d r : Dir} {n : FileName κ}

theorem entitled_self (hn : rootOf d n = some r) : Entitled (· = r) d n :=
  fun _ hr => Option.some.inj (hr.symm.trans hn)

theorem entitled_none (hn : rootOf d n = none) : Entitled g d n := fun _ hr =>
    nomatch hr.symm.trans hn

theorem FsOp.Granted.mono (h : o.Granted g gives) (hg : ∀ r, gives r → gives' r) :
    o.Granted g gives' := by
  cases o with
  | unlock => exact fun hn => hg _ (h hn)
  | _ => exact h

theorem FsOp.Granted.accesses (h : o.Granted g gives) (ha : o.Accesses d n) : Entitled g d n := by
  cases o with
  | existsFile | read | create | syncFile | removeFile =>
    obtain ⟨rfl, rfl⟩ := ha
    exact h
  | rename | hardLink =>
    obtain ⟨rfl, rfl | rfl⟩ := ha
    · exact h.1
    · exact h.2
  | transfer =>
    obtain ⟨rfl | rfl, rfl⟩ := ha
    · exact entitled_none h.1
    · exact entitled_none h.2
  | _ => exact ha.elim

theorem FsOp.spares_of_not_accesses (h : ¬ o.Accesses d n)
    (hr : ∀ d', o = .removeDirAll d' → ¬ d' <:+ d) : o.Spares fun d' n' => d' = d ∧ n' = n := by
  cases o with
  | create | removeFile => exact h
  | rename => exact ⟨fun h' => h ⟨h'.1, .inl h'.2⟩, fun h' => h ⟨h'.1, .inr h'.2⟩⟩
  | hardLink => exact fun h' => h ⟨h'.1, .inr h'.2⟩
  | removeDirAll d' =>
    rintro _ _ ⟨rfl, -⟩
    exact hr d' rfl
  | transfer => exact fun h' => h ⟨.inr h'.1, h'.2⟩
  | _ => trivial

theorem FsOp.Makes.granted (h : o.Makes) : o.Granted g gives := by
  cases o with
  | existsDir | createDir | syncDir | access => trivial
  | _ => exact h.elim

end

/-! ## What owners do -/

section

variable {root d : Dir} {n : FileName κ} {v : Content κ}

theorem steady_writeJson (h : Entitled (· = root) d n) :
    (writeJson d n v).run.Within (FsOp.Steady root) := by
  refine Prog.within_bind (within_ask.mpr trivial) fun u => ?_
  refine Prog.within_bind (within_io.mpr (entitled_none rfl)) fun _ => ?_
  refine Prog.within_bind (within_io.mpr (entitled_none rfl)) fun _ => ?_
  refine Prog.within_bind (within_io.mpr ⟨entitled_none rfl, h⟩) fun _ => ?_
  exact within_mapErr (within_io.mpr trivial)

theorem steady_publishReceipt (h : Entitled (· = root) d n) :
    (publishReceipt d n v).run.Within (FsOp.Steady root) := by
  refine Prog.within_bind (within_ask.mpr trivial) fun u => ?_
  refine Prog.within_bind (within_io.mpr (entitled_none rfl)) fun _ => ?_
  refine Prog.within_bind (within_io.mpr (entitled_none rfl)) fun _ => ?_
  refine Prog.within_bind (within_io.mpr ⟨entitled_none rfl, h⟩) fun _ => ?_
  refine Prog.within_bind (within_mapErr (within_io.mpr trivial)) fun _ => ?_
  exact ⟨entitled_none rfl, fun _ => trivial⟩

theorem steady_newLayout : (newLayout d : Io κ String).run.Within (FsOp.Steady root) :=
  Prog.within_bind (within_ask.mpr trivial) fun _ =>
    Prog.within_bind (within_io.mpr trivial) fun _ =>
      Prog.within_bind (within_io.mpr trivial) fun _ => trivial

theorem steady_createDirAll : (createDirAll d : Io κ _).run.Within (FsOp.Steady root) :=
  makes_createDirAll.mono fun _ => FsOp.Makes.granted

theorem steady_withTransferLock {α : Type} {p : Io κ α} (h : p.run.Within (FsOp.Steady root)) :
    (withTransferLock d p).run.Within (FsOp.Steady root) :=
  within_withTransferLock h trivial nofun nofun

variable [Crates]

theorem steady_digestFile :
    (digestFile d : Io κ (Nat × ContentDigest)).run.Within (FsOp.Steady root) := by
  refine Prog.within_bind (within_io.mpr (entitled_none rfl)) fun c => ?_
  cases c <;> trivial

theorem modest_copy {ctx : OperationContext} {source destination : DataEndpoint} :
    (LocalDataMover.copy ctx source destination : Io κ _).run.Within FsOp.Modest := by
  have locked : ∀ {d : Dir} {α : Type} {p : Io κ α}, p.run.Within FsOp.Modest →
      (withTransferLock d p).run.Within FsOp.Modest := fun h =>
    within_withTransferLock h ⟨trivial, nofun⟩ ⟨nofun, nofun⟩ ⟨nofun, nofun⟩
  refine Prog.within_bind trivial fun _ => Prog.within_bind trivial fun src => ?_
  refine Prog.within_bind trivial fun dst => Prog.within_guard (locked (locked ?_))
  refine Prog.within_bind (within_ask.mpr ⟨entitled_none rfl, nofun⟩) fun b => ?_
  cases b with
  | true => trivial
  | false =>
    refine Prog.within_bind ⟨⟨trivial, nofun⟩, fun _ => trivial⟩ fun _ => ?_
    refine Prog.within_bind ⟨⟨trivial, nofun⟩, fun _ => trivial⟩ fun _ => ?_
    refine Prog.within_bind ⟨⟨⟨rfl, rfl⟩, nofun⟩, fun _ => trivial⟩ fun _ => ?_
    refine Prog.within_bind ?_ fun _ => trivial
    refine Prog.within_bind (within_io.mpr ⟨entitled_none rfl, nofun⟩) fun c => ?_
    cases c <;> trivial

end

namespace LocalStorage

variable {root : Dir} {ctx : OperationContext} {st next : State κ}
  {self : LocalStorage κ} {α : Type}

theorem steady_commitRecallEffect [Crates] {target : RecallTarget} {evidence : TransferEvidence} :
    (commitRecallEffect root ctx target evidence st).run.Within (FsOp.Steady root) := by
  refine Prog.within_bind trivial fun owner => Prog.within_guard ?_
  refine Prog.within_bind trivial fun source => Prog.within_guard (steady_withTransferLock ?_)
  refine Prog.within_bind steady_digestFile fun x => Prog.within_bind trivial fun _ => ?_
  refine Prog.within_bind (within_io.mpr (entitled_none rfl)) fun _ => ?_
  refine Prog.within_bind (within_io.mpr trivial) fun _ => ?_
  exact Prog.within_bind (steady_writeJson (entitled_none rfl)) fun _ => trivial

theorem steady_adopt {answer : HsmResult α} :
    (self.adopt next answer).Within (FsOp.Steady self.root) := by
  refine .bind (.bind (steady_writeJson (entitled_self rfl)) fun r => ?_) fun x => ?_
  · cases r <;> trivial
  · obtain ⟨e | ⟨⟩, t⟩ := x <;> trivial

theorem steady_step [DecidableEq κ] [KeyHash κ] [Recorded α] {request : StepRequest}
    {effect : State κ → Io κ (α × State κ)}
    (h : (effect self.state).run.Within (FsOp.Steady self.root)) :
    (self.step ctx request effect).Within (FsOp.Steady self.root) := by
  unfold LocalStorage.step
  split
  · trivial
  · trivial
  · dsimp only
    split
    · trivial
    · refine h.bind fun r => ?_
      rcases r with e | ⟨value, next⟩
      · dsimp only
        split
        · trivial
        · exact steady_adopt
      · exact steady_adopt

theorem steady_sweep {layouts : List String} :
    (sweep root layouts : Io κ Nat).run.Within (FsOp.Steady root) := by
  induction layouts with
  | nil => trivial
  | cons layout rest ih =>
    refine Prog.within_bind (within_ask.mpr trivial) fun b => ?_
    have last : (do return (← sweep root rest) + 1 : Io κ Nat).run.Within (FsOp.Steady root) :=
      Prog.within_bind ih fun _ => trivial
    cases b with
    | false => exact last
    | true =>
      have removed : (removeDirAll (layoutDir root layout) : Io κ Unit).run.Within
        (FsOp.Steady root) :=
        within_io.mpr ⟨root, layout, rfl, rfl⟩
      exact Prog.within_bind (steady_withTransferLock removed) fun _ => last

theorem steady_import [Crates] {id : String} {bytes : Bytes} :
    (self.import id bytes).Within (FsOp.Steady self.root) := by
  unfold LocalStorage.import
  split
  · trivial
  · split
    · trivial
    · split
      · trivial
      · refine .bind (Prog.within_bind steady_newLayout fun layout => ?_) fun r => ?_
        · refine Prog.within_bind (within_io.mpr (entitled_none rfl)) fun _ => ?_
          refine Prog.within_bind (within_io.mpr (entitled_none rfl)) fun _ => ?_
          refine Prog.within_bind (within_io.mpr trivial) fun _ => ?_
          refine Prog.within_bind steady_digestFile fun x => ?_
          exact Prog.within_bind (steady_writeJson (entitled_none rfl)) fun _ => trivial
        · rcases r with e | ⟨layout, length, digest⟩
          · trivial
          · exact steady_adopt

theorem steady_collectGarbage : self.collectGarbage.Within (FsOp.Steady self.root) := by
  unfold LocalStorage.collectGarbage
  split
  · trivial
  · refine .bind (Prog.within_bind steady_sweep fun _ =>
      Prog.within_bind (within_io.mpr trivial) fun _ => trivial) fun r => ?_
    rcases r with e | n
    · trivial
    · exact steady_adopt

theorem steady_perform [DecidableEq κ] [KeyHash κ] [Crates] {request : Request} :
    (self.perform request).Within (FsOp.Steady self.root) := by
  cases request with
  | «import» => exact .bind steady_import fun _ => trivial
  | collectGarbage => exact .bind steady_collectGarbage fun _ => trivial
  | step ctx request =>
    cases request with
    | prepareArchive =>
      refine .bind (steady_step ?_) fun _ => trivial
      refine Prog.within_bind trivial fun _ => Prog.within_bind trivial fun _ =>
        Prog.within_guard ?_
      exact Prog.within_bind (within_ask.mpr trivial) fun _ => trivial
    | commitArchive =>
      refine .bind (steady_step ?_) fun _ => trivial
      refine Prog.within_bind trivial fun _ => Prog.within_guard ?_
      exact Prog.within_bind trivial fun _ => steady_withTransferLock trivial
    | release =>
      refine .bind (steady_step ?_) fun _ => trivial
      exact Prog.within_bind trivial fun _ => steady_withTransferLock trivial
    | prepareRecall =>
      refine .bind (steady_step ?_) fun _ => trivial
      exact Prog.within_bind trivial fun _ => Prog.within_bind steady_newLayout fun _ => trivial
    | commitRecall => exact .bind (steady_step steady_commitRecallEffect) fun _ => trivial

section

variable {A : (o : FsOp (FileName κ) (Content κ)) → o.Ans → Prop}

theorem root_adopt {answer : HsmResult α} {x : HsmResult α × LocalStorage κ}
    (h : (self.adopt next answer).Yields (S := LocalSig κ) A x) : x.2.root = self.root := by
  simp only [adopt, persist, Prog.yields_bind] at h
  obtain ⟨_, ⟨r | ⟨⟩, -, rfl⟩, rfl⟩ := h <;> rfl

theorem root_step [DecidableEq κ] [KeyHash κ] [Recorded α] {request : StepRequest}
    {effect : State κ → Io κ (α × State κ)} {x : HsmResult α × LocalStorage κ}
    (h : (self.step ctx request effect).Yields (S := LocalSig κ) A x) : x.2.root = self.root := by
  unfold LocalStorage.step at h
  split at h
  · rw [h]
  · rw [h]
  · dsimp only at h
    split at h
    · rw [h]
    · obtain ⟨e | ⟨value, next⟩, -, h⟩ := (Prog.yields_bind _ _ _).mp h
      · dsimp only at h
        split at h
        · rw [h]
        · exact root_adopt h
      · exact root_adopt h

theorem root_import [Crates] {id : String} {bytes : Bytes}
    {x : HsmResult EntityState × LocalStorage κ}
    (h : (self.import id bytes).Yields (S := LocalSig κ) A x) : x.2.root = self.root := by
  unfold LocalStorage.import at h
  split at h
  · rw [h]
  · split at h
    · rw [h]
    · split at h
      · rw [h]
      · obtain ⟨e | r, -, h⟩ := (Prog.yields_bind _ _ _).mp h
        · rw [h]
        · exact root_adopt h

theorem root_collectGarbage {x : HsmResult Nat × LocalStorage κ}
    (h : self.collectGarbage.Yields (S := LocalSig κ) A x) : x.2.root = self.root := by
  unfold LocalStorage.collectGarbage at h
  split at h
  · rw [h]
  · obtain ⟨e | n, -, h⟩ := (Prog.yields_bind _ _ _).mp h
    · rw [h]
    · exact root_adopt h

theorem root_perform [DecidableEq κ] [KeyHash κ] [Crates] {request : Request}
    {x : HsmResult Reply × LocalStorage κ}
    (h : (self.perform request).Yields (S := LocalSig κ) A x) : x.2.root = self.root := by
  have replied : ∀ {β : Type} {f : β → Reply}
    {p : Prog (LocalSig κ) (HsmResult β × LocalStorage κ)},
      (replying f p).Yields A x → (∀ y, p.Yields A y → y.2.root = self.root) →
        x.2.root = self.root := by
    intro β f p h hp
    obtain ⟨y, hy, rfl⟩ := (Prog.yields_bind _ _ _).mp h
    exact hp y hy
  cases request with
  | «import» => exact replied h fun _ => root_import
  | collectGarbage => exact replied h fun _ => root_collectGarbage
  | step ctx request => cases request <;> exact replied h fun _ => root_step

theorem root_load (h : (load root : Io κ _).run.Yields (S := LocalSig κ) A (.ok self)) :
    self.root = root := by
  obtain ⟨_, -, h⟩ := Prog.yields_bind_ok.mp h
  obtain ⟨_, -, h⟩ := Prog.yields_bind_ok.mp h
  obtain ⟨st, -, h⟩ := Prog.yields_bind_ok.mp h
  obtain ⟨-, h⟩ := Prog.yields_guard_ok.mp h
  rw [← Prog.yields_pure_ok.mp h]

end

theorem steady_load : (load root : Io κ _).run.Within (FsOp.Steady root) := by
  refine Prog.within_bind steady_createDirAll fun _ => ?_
  refine Prog.within_bind (within_io.mpr trivial) fun _ => Prog.within_bind ?_ fun st => ?_
  · refine Prog.within_bind (within_ask.mpr (entitled_self rfl)) fun b => ?_
    cases b with
    | true =>
      refine Prog.within_bind (within_io.mpr (entitled_self rfl)) fun c => ?_
      cases c <;> trivial
    | false =>
      refine Prog.within_bind (within_ask.mpr trivial) fun _ => ?_
      refine Prog.within_bind (within_ask.mpr trivial) fun _ => ?_
      exact Prog.within_bind (steady_writeJson (entitled_self rfl)) fun _ => trivial
  · exact Prog.within_guard trivial

end LocalStorage

namespace LocalArchive

variable {root : Dir} {id : String} {self : LocalArchive}

theorem steady_load : (load root id : Io κ _).run.Within (FsOp.Steady root) := by
  have rest : (do createDirAll (objectsDir root); createDirAll (attemptsDir root); syncDir root
                  return ⟨root, id⟩ : Io κ LocalArchive).run.Within (FsOp.Steady root) :=
    Prog.within_bind steady_createDirAll fun _ => Prog.within_bind steady_createDirAll fun _ =>
      Prog.within_bind (within_io.mpr trivial) fun _ => trivial
  refine Prog.within_guard (Prog.within_bind (within_ask.mpr (entitled_self rfl)) fun b => ?_)
  cases b with
  | true =>
    refine Prog.within_bind (within_io.mpr (entitled_self rfl)) fun v =>
      Prog.within_bind ?_ fun _ => ?_
    · cases v <;> trivial
    · exact Prog.within_guard rest
  | false => exact Prog.within_bind (steady_writeJson (entitled_self rfl)) fun _ => rest

theorem root_load {A : (o : FsOp (FileName κ) (Content κ)) → o.Ans → Prop}
    (h : (load root id : Io κ _).run.Yields (S := LocalSig κ) A (.ok self)) : self.root = root := by
  have rest : (do createDirAll (objectsDir root); createDirAll (attemptsDir root); syncDir root
                  return ⟨root, id⟩ : Io κ LocalArchive).run.Yields (S := LocalSig κ) A (.ok self) →
      self.root = root := by
    intro h
    obtain ⟨_, -, h⟩ := Prog.yields_bind_ok.mp h
    obtain ⟨_, -, h⟩ := Prog.yields_bind_ok.mp h
    obtain ⟨_, -, h⟩ := Prog.yields_bind_ok.mp h
    rw [← Prog.yields_pure_ok.mp h]
  obtain ⟨-, h⟩ := Prog.yields_guard_ok.mp h
  obtain ⟨b, -, h⟩ := Prog.yields_bind_ok.mp h
  cases b with
  | true =>
    obtain ⟨_, -, h⟩ := Prog.yields_bind_ok.mp h
    obtain ⟨_, -, h⟩ := Prog.yields_bind_ok.mp h
    exact rest (Prog.yields_guard_ok.mp h).2
  | false =>
    obtain ⟨_, -, h⟩ := Prog.yields_bind_ok.mp h
    exact rest h

variable [KeyHash κ] [Crates] {archive : ArchiveKey} {ctx : OperationContext} {view : DataView}
  {target : ArchiveTarget} {evidence : TransferEvidence} {payload : Dir}

theorem steady_committed : (self.committed archive : Io κ _).run.Within (FsOp.Steady self.root) :=
  within_lookup (fun _ => entitled_self rfl) (fun _ => entitled_none rfl)
    (fun _ => entitled_none rfl)
    fun _ => trivial

theorem steady_sealAndPublish :
    (self.sealAndPublish target view evidence payload : Io κ _).run.Within
    (FsOp.Steady self.root) := by
  refine Prog.within_bind steady_digestFile fun x => Prog.within_guard ?_
  refine Prog.within_bind (within_io.mpr (entitled_none rfl)) fun _ => ?_
  refine Prog.within_bind (within_io.mpr trivial) fun _ => ?_
  refine Prog.within_bind (steady_writeJson (entitled_none rfl)) fun _ => ?_
  refine Prog.within_bind (within_ask.mpr trivial) fun u => Prog.within_check.mpr fun path hp => ?_
  obtain ⟨-, rfl⟩ := receiptPath_eq_ok.mp hp
  exact Prog.within_bind (steady_publishReceipt (entitled_self rfl)) fun _ => trivial

theorem steady_commit :
    (self.commit ctx target view evidence : Io κ _).run.Within (FsOp.Steady self.root) := by
  refine Prog.within_bind trivial fun _ => ?_
  refine Prog.within_bind (within_io.mpr (entitled_self rfl)) fun v =>
    Prog.within_bind ?_ fun prior => ?_
  · cases v <;> trivial
  refine Prog.within_guard (Prog.within_bind steady_committed fun x => ?_)
  cases x with
  | some value =>
    dsimp only
    split <;> trivial
  | none => exact Prog.within_bind trivial fun e => steady_withTransferLock steady_sealAndPublish

theorem steady_backendCall {call : BackendCall} :
    (Stores.backendCall (κ := κ) self call).Within (FsOp.Steady self.root) := by
  cases call with
  | inspect => exact Prog.within_bind steady_committed fun c => by cases c <;> trivial
  | commit => exact steady_commit
  | resumeCommit =>
    refine Prog.within_bind trivial fun e =>
      Prog.within_bind (within_ask.mpr (entitled_none rfl)) fun b => ?_
    cases b with
    | false => trivial
    | true => exact Prog.within_bind steady_commit fun _ => trivial
  | «open» =>
    refine Prog.within_bind steady_committed fun x => ?_
    cases x with
    | none => trivial
    | some value => exact Prog.within_guard trivial
  | prepare =>
    refine Prog.within_bind trivial fun _ => Prog.within_bind steady_committed fun x => ?_
    refine Prog.within_guard (Prog.within_bind (within_ask.mpr (entitled_self rfl)) fun b => ?_)
    cases b with
    | true =>
      refine Prog.within_bind (within_io.mpr (entitled_self rfl)) fun v =>
        Prog.within_bind ?_ fun p => ?_
      · cases v <;> trivial
      · exact Prog.within_guard trivial
    | false =>
      refine Prog.within_bind steady_newLayout fun layout => ?_
      exact Prog.within_bind (steady_writeJson (entitled_self rfl)) fun _ => trivial

end LocalArchive

/-! ## Processes -/

section

variable {κ : Type} [DecidableEq κ] [KeyHash κ] [Crates]

/-- A store or an archive with the calls it serves until it is dropped, or a copy. -/
inductive Process
  | storage (root : Dir) (requests : List Request)
  | archive (root : Dir) (id : String) (calls : List BackendCall)
  | copy (ctx : OperationContext) (source destination : DataEndpoint)

def LocalStorage.serve (self : LocalStorage κ) : List Request → Prog (LocalSig κ) Unit
  | [] => return ()
  | request :: rest => do
      let (_, self) ← self.perform request
      self.serve rest

omit [DecidableEq κ] in
def LocalArchive.serve (self : LocalArchive) : List BackendCall → Prog (LocalSig κ) Unit
  | [] => return ()
  | call :: rest => do
      let _ ← Stores.backendCall self call
      self.serve rest

/-- The handle is dropped, and the file that holds the lock is closed. -/
def dropOwner (root : Dir) : Prog (LocalSig κ) Unit := .op (.unlock root .ownerLock) .ret

def Process.program : Process → Prog (LocalSig κ) Unit
  | storage root requests => do
      match ← (LocalStorage.open root).run with
      | .error _ => return ()
      | .ok self => self.serve requests >>= fun _ => dropOwner self.root
  | archive root id calls => do
      match ← (LocalArchive.open root id).run with
      | .error _ => return ()
      | .ok self => self.serve calls >>= fun _ => dropOwner self.root
  | copy ctx source destination => do
      let _ ← (LocalDataMover.copy ctx source destination).run

/-- The roots that a program owns, told by the answers it got. -/
def noteOwner (g : Dir → Prop) : (o : FsOp (FileName κ) (Content κ)) → o.Ans → Dir → Prop
  | .tryLock d .ownerLock, .ok () => fun d' => d' = d ∨ g d'
  | .unlock d .ownerLock, _ => fun d' => d' ≠ d ∧ g d'
  | _, _ => g

end

section

variable {κ : Type} {g gives : Dir → Prop} {root : Dir}
  {o : FsOp (FileName κ) (Content κ)} {α : Type}

theorem noteOwner_eq (ht : ∀ d, o ≠ .tryLock d .ownerLock) (hu : ∀ d, o ≠ .unlock d .ownerLock)
    (x : o.Ans) : noteOwner g o x = g := by
  cases o with
  | tryLock d n =>
    cases n with
    | ownerLock => exact (ht d rfl).elim
    | _ => rfl
  | unlock d n =>
    cases n with
    | ownerLock => exact (hu d rfl).elim
    | _ => rfl
  | _ => rfl

theorem FsOp.Makes.note (h : o.Makes) (x : o.Ans) : noteOwner g o x = g := by
  refine noteOwner_eq ?_ ?_ x <;> rintro d rfl <;> exact h

theorem FsOp.Granted.note (h : o.Granted g fun _ => False) (hg : g root) (x : o.Ans) :
    noteOwner g o x = g := by
  refine noteOwner_eq ?_ ?_ x
  · rintro d rfl
    exact h rfl root hg
  · rintro d rfl
    exact h rfl

/-- The program does what its notes permit and ends in `Q`. -/
abbrev Owning (Q : (Dir → Prop) → α → Prop) (g : Dir → Prop) (p : Prog (LocalSig κ) α) : Prop :=
  p.Careful (S := LocalSig κ) (fun g o => FsOp.Granted g g o) noteOwner Q g

namespace Owning

theorem steady {p : Prog (LocalSig κ) α} (h : p.Within (FsOp.Steady root)) (hg : g = (· = root)) :
    Owning (fun g _ => g = (· = root)) g p := by
  refine .of_within (I := fun g => g = (· = root)) ?_ ?_ h hg fun _ _ hg => hg
  · rintro g o ho rfl
    exact ho.mono nofun
  · rintro g o x ho rfl
    exact ho.note rfl x

theorem makes {p : Io κ α} {β : Type} {f : α → Io κ β} {Q : (Dir → Prop) → HsmResult β → Prop}
    (h : p.run.Within FsOp.Makes) (he : ∀ e, Q g (.error e)) (hf : ∀ a, Owning Q g (f a).run) :
    Owning Q g (p >>= f).run := by
  refine .run_bind (.of_within (I := fun g' => g' = g) ?_ ?_ h rfl ?_)
  · exact fun _ _ ho _ => ho.granted
  · exact fun _ _ x ho hg => (ho.note x).trans hg
  · rintro _ r rfl
    cases r with
    | ok a => exact hf a
    | error e => exact he e

theorem lockRoot : Owning (fun g r => r = .ok () → g = (· = root)) (fun _ => False)
    (lockRoot root : Io κ Unit).run := by
  refine makes makes_missingDirs (fun _ => nofun) fun _ => ?_
  refine makes makes_createDirAll (fun _ => nofun) fun _ => ?_
  refine makes makes_syncParents (fun _ => nofun) fun _ => ?_
  refine makes (within_io.mpr trivial) (fun _ => nofun) fun _ => ⟨fun _ _ => id, fun x => ?_⟩
  rcases x with e | ⟨⟩
  · exact nofun
  · intro _
    funext r
    simp [noteOwner]

theorem opened {β : Type} {load : Io κ β} {k : HsmResult β → Prog (LocalSig κ) (HsmResult β)}
    (h : load.run.Within (FsOp.Steady root)) (ok : ∀ b, k (.ok b) = .ret (.ok b))
    (error : ∀ e, k (.error e) = .op (.unlock root .ownerLock) fun _ => .ret (.error e)) :
    Owning (fun g r => ∀ b, r = .ok b →
        load.run.Yields (fun _ _ => True) (.ok b) ∧ g = (· = root)) (fun _ => False)
      (HsmRs.lockRoot root >>= fun _ => ExceptT.mk (load.run >>= k)).run := by
  refine .run_bind (lockRoot.mono fun g r hg => ?_)
  rcases r with e | ⟨⟩
  · exact nofun
  refine .bind ((steady h (hg rfl)).yielding.mono fun g r ⟨hg, ha⟩ => ?_)
  subst hg
  cases r with
  | error e =>
    rw [error]
    exact ⟨fun _ => rfl, fun _ => nofun⟩
  | ok self =>
    rw [ok]
    rintro _ ⟨⟩
    exact ⟨ha, rfl⟩

theorem dropped {p : Prog (LocalSig κ) Unit} (h : p.Within (FsOp.Steady root))
    (hg : g = (· = root)) :
    Owning (fun _ _ => True) g (p >>= fun _ => dropOwner root) :=
  .bind ((steady h hg).mono fun _ _ hg => ⟨fun _ => hg ▸ rfl, fun _ => trivial⟩)

end Owning

end

section

variable {κ : Type} [DecidableEq κ] [KeyHash κ] [Crates]

theorem LocalStorage.steady_serve (self : LocalStorage κ) (requests : List Request) :
    (self.serve requests).Within (FsOp.Steady self.root) := by
  induction requests generalizing self with
  | nil => trivial
  | cons request rest ih =>
    refine steady_perform.bind_yields fun x hx => ?_
    rw [← root_perform hx]
    exact ih x.2

omit [DecidableEq κ] in
theorem LocalArchive.steady_serve (self : LocalArchive) (calls : List BackendCall) :
    (self.serve calls : Prog (LocalSig κ) Unit).Within (FsOp.Steady self.root) := by
  induction calls with
  | nil => trivial
  | cons call rest ih => exact steady_backendCall.bind fun _ => ih

theorem Process.owning (c : Process) :
    Owning (fun _ _ => True) (fun _ => False) (c.program : Prog (LocalSig κ) Unit) := by
  cases c with
  | storage root requests =>
    refine .bind (.mono (p := (LocalStorage.open root).run)
      (Owning.opened LocalStorage.steady_load ?_ ?_) fun g r hg => ?_)
    · exact fun _ => rfl
    · exact fun _ => rfl
    cases r with
    | error e => trivial
    | ok self =>
      obtain ⟨ha, hg⟩ := hg self rfl
      obtain rfl := LocalStorage.root_load ha
      exact Owning.dropped (self.steady_serve requests) hg
  | archive root id calls =>
    refine .bind (.mono (p := (LocalArchive.open root id).run)
      (Owning.opened LocalArchive.steady_load ?_ ?_) fun g r hg => ?_)
    · exact fun _ => rfl
    · exact fun _ => rfl
    cases r with
    | error e => trivial
    | ok self =>
      obtain ⟨ha, hg⟩ := hg self rfl
      obtain rfl := LocalArchive.root_load ha
      exact Owning.dropped (self.steady_serve calls) hg
  | copy ctx source destination =>
    refine .bind
      (.of_within (I := fun g => g = fun _ => False) ?_ ?_ modest_copy rfl fun _ _ _ => ?_)
    · rintro _ o ho rfl
      exact ho.1
    · rintro _ o x ho rfl
      refine noteOwner_eq ho.2 ?_ x
      rintro d rfl
      exact ho.1 rfl
    · trivial

end

/-! ## Runs -/

/-- The end of some processes takes their owner locks. When none is left, the machine may have
lost power. -/
structure Killed (kept : List (Dir → Prop)) (s s' : Disk (FileName κ) (Content κ)) : Prop where
  disk : kept ≠ [] → s' = { s with locked := s'.locked }
  owner : ∀ d, s'.locked d .ownerLock = true ↔ ∃ g ∈ kept, g d

section

variable {κ : Type} [DecidableEq κ] [KeyHash κ] [Crates]

/-- Processes on a file system. A transfer writes bit by bit, a directory is removed bit by bit. -/
def processes (π : Policy (FileName κ) (Content κ)) :
    Plant (LocalSig κ) (Disk (FileName κ) (Content κ)) Process (Dir → Prop) where
  machine := fsMachine π
  program := Process.program
  clear _ := False
  note := noteOwner
  slow o := (∃ src d n, o = .transfer src d n) ∨ ∃ d, o = .removeDirAll d
  crash := Killed

omit [KeyHash κ] [Crates] in
theorem noteOwner_step {π : Policy (FileName κ) (Content κ)} {s s' : Disk (FileName κ) (Content κ)}
    {g : Dir → Prop} {o : FsOp (FileName κ) (Content κ)} {x : o.Ans}
    (h : FsStep π s o x s') : (∀ d, noteOwner g o x d → g d ∧ o ≠ .unlock d .ownerLock) ∨
      ∃ d, o = .tryLock d .ownerLock ∧ s.locked d .ownerLock = false ∧
        s'.locked d .ownerLock = true ∧ ∀ d', noteOwner g o x d' → d' = d ∨ g d' := by
  cases o with
  | tryLock d n =>
    cases n with
    | ownerLock =>
      cases h with
      | respond _ u =>
        cases hl : s.locked d .ownerLock with
        | true =>
          simp only [Disk.respond, hl, if_true]
          exact .inl fun d' hd => ⟨hd, by simp⟩
        | false =>
          simp only [Disk.respond, hl, Bool.false_eq_true, if_false]
          exact .inr ⟨d, rfl, hl, by simp [Disk.setLock], fun d' hd => hd⟩
      | fault _ _ hf =>
        cases hf
        exact .inl fun d' hd => ⟨hd, by simp⟩
      | unseen look => cases look
    | _ => exact .inl fun d' hd => ⟨hd, by simp⟩
  | unlock d n =>
    cases n with
    | ownerLock =>
      refine .inl fun d' hd => ⟨hd.2, ?_⟩
      rintro ⟨⟩
      exact hd.1 rfl
    | _ => exact .inl fun d' hd => ⟨hd, by simp⟩
  | _ => exact .inl fun d' hd => ⟨hd, by simp⟩

/-- The root of another owner does not lie among the layouts of this one. -/
def Unnested (g g' : Dir → Prop) : Prop := ∀ r r', g r → g' r' → ¬ layoutsDir r <:+ r'

/-- A process holds the lock of the root it owns, and owns no other. Nothing is shared. -/
def ownership (π : Policy (FileName κ) (Content κ)) : Discipline (processes π) where
  permits _ g o := FsOp.Granted g g o
  relies _ g s := (∀ d, g d → s.locked d .ownerLock = true) ∧ ∀ d d', g d → g d' → d = d'
  apart _ g _ g' := ∀ d, g d → ¬ g' d
  allowed _ g _ g' := Unnested g g' ∧ Unnested g' g
  symm h d hd' hd := h d hd hd'
  allowed_symm := And.symm
  careful := Process.owning
  clear _ _ := ⟨fun _ => False.elim, fun _ _ => False.elim⟩
  clear_apart _ _ _ _ := False.elim
  own {_ g o x s s'} hp h hs := by
    have kept : ∀ d, g d → o ≠ .unlock d .ownerLock → s'.locked d .ownerLock = true :=
      fun d hd => hs.tear.locked (h.1 d hd)
    rcases noteOwner_step hs with hn | ⟨d, rfl, -, hl, hn⟩
    · exact ⟨fun d hd => kept d (hn d hd).1 (hn d hd).2,
        fun d d' hd hd' => h.2 d d' (hn d hd).1 (hn d' hd').1⟩
    · have only : ∀ d', noteOwner g (.tryLock d .ownerLock) x d' → d' = d :=
        fun d' hd => (hn d' hd).resolve_right (hp rfl d')
      exact ⟨fun d' hd => only d' hd ▸ hl, fun d' d'' hd hd' =>
        (only d' hd).trans (only d'' hd').symm⟩
  bit := by
    rintro _ g o s s' (⟨src, dst, n, rfl⟩ | ⟨d', rfl⟩) - h ht
    · exact ⟨fun d hd => Disk.Tear.locked ht (h.1 d hd) nofun, h.2⟩
    · exact ⟨fun d hd => Disk.Tear.locked ht (h.1 d hd) nofun, h.2⟩
  others := by
    intro _ g _ g' o s s' hp h apart _ hs
    have ht : s.Tear o s' := hs.elim (fun ht => ht) fun ⟨x, hs⟩ => FsStep.tear hs
    refine ⟨fun d hd => ht.locked (h.1 d hd) ?_, h.2⟩
    rintro rfl
    exact apart d (hp rfl) hd
  crash hg h hc := ⟨fun d hd => (hc.owner d).mpr ⟨_, hg, hd⟩, h.2⟩
  parted _ _ h' apart hs d hd hd' := by
    rcases noteOwner_step hs with hn | ⟨d₀, -, hl, -, hn⟩
    · exact apart d (hn d hd).1 hd'
    · rcases hn d hd with rfl | hd
      · exact Bool.false_ne_true (hl.symm.trans (h'.1 d hd'))
      · exact apart d hd hd'

end

section

variable {κ : Type} [DecidableEq κ] [KeyHash κ] [Crates] {π : Policy (FileName κ) (Content κ)}
  {s s' : Disk (FileName κ) (Content κ)} {ts : List (Thread (LocalSig κ) Process (Dir → Prop))}
  {p p' : Pool (LocalSig κ) (Disk (FileName κ) (Content κ)) Process (Dir → Prop)}
  {t u : Thread (LocalSig κ) Process (Dir → Prop)} {o : FsOp (FileName κ) (Content κ)}
  {g g' : Dir → Prop} {d r r' : Dir} {n : FileName κ} {layout : String}

omit [DecidableEq κ] [KeyHash κ] [Crates] in
/-- The records of a root lie in one of its layouts only if the root lies among the layouts. -/
theorem layouts_above (hd : rootOf d n = some r) (h : layoutDir r' layout <:+ d) :
    layoutsDir r' <:+ r := by
  have tail : ∀ d, layoutDir r' layout <:+ d → layoutsDir r' <:+ d.tail := by
    rintro (- | ⟨x, d⟩) h
    · simp [layoutDir] at h
    · rcases List.suffix_cons_iff.mp h with h | h
      · cases h
        exact List.suffix_refl _
      · exact (List.suffix_cons _ _).trans h
  cases n with
  | state | backendId =>
    cases hd
    exact (tail _ h).trans (List.tail_suffix _)
  | hashed k =>
    cases hd
    exact tail _ h
  | _ => cases hd

omit [DecidableEq κ] [KeyHash κ] [Crates] in
theorem FsOp.Granted.spares (h : o.Granted g g) (hd : rootOf d n = some r)
    (ha : ¬ o.Accesses d n) (apart : ∀ r', g r' → ¬ layoutsDir r' <:+ r) :
    o.Spares fun d' n' => d' = d ∧ n' = n := by
  refine spares_of_not_accesses ha ?_
  rintro _ rfl hs
  obtain ⟨r', layout, hg, rfl⟩ := h
  exact apart r' hg (layouts_above hd hs)

theorem spares_other (h : (ownership π).Orderly p) (hl : (ownership π).Legal p) (ht : t ∈ p.threads)
    (hu : u ∈ p.threads) (hn : u ≠ t) {k : o.Ans → Prog (LocalSig κ) Unit} (he : u.rest = .op o k)
    (hg : t.notes r) (hd : rootOf d n = some r) : o.Spares fun d' n' => d' = d ∧ n' = n := by
  obtain ⟨apart, unnested, -⟩ := h.between hl hu ht hn
  have careful := h.careful u hu
  rw [he] at careful
  have granted : o.Granted u.notes u.notes := careful.1
  exact granted.spares hd (fun ha => apart r (granted.accesses ha r hd) hg)
    fun r' hr => unnested r' r hr hg

/-- As long as the owner of a root does nothing and is not killed, its records stay. -/
theorem step_owned (h : (ownership π).Orderly p) (hl : (ownership π).Legal p)
    (hs : Pool.Step (processes π) p p') (ht : t ∈ p.threads) (ht' : t ∈ p'.threads)
    (hg : t.notes r) (hd : rootOf d n = some r) : p'.state.reads d n = p.state.reads d n := by
  have reads : ∀ {s s' : Disk (FileName κ) (Content κ)}, Frame (fun d' n' => d' = d ∧ n' = n) s s' →
      s'.reads d n = s.reads d n := fun hf => hf.reads ⟨rfl, rfl⟩
  cases hs with
  | begin => rfl
  | ended => rfl
  | @op s s' a b c g o k x hs =>
    by_cases he : t = ⟨c, g, .op o k⟩
    · subst he
      rcases Discipline.mem_around.mp ht' with he | hm
      · exact (Prog.rest_ne (congrArg Thread.rest he).symm).elim
      · exact ((h.beside hl _ hm).1 r hg hg).elim
    · refine reads (FsStep.frame hs ?_)
      exact spares_other h hl ht (Discipline.mem_around.mpr (.inl rfl)) (Ne.symm he) rfl hg hd
  | @bit s s' a b c g o k slow hb =>
    refine reads (Disk.Tear.frame hb ?_)
    by_cases he : t = ⟨c, g, .op o k⟩
    · subst he
      have granted : o.Granted g g := (h.careful _ ht).1
      have relies := (h.relies _ ht).2
      refine granted.spares hd ?_ fun r' hr hs => ?_
      · rcases slow with ⟨src, dst, n', rfl⟩ | ⟨d', rfl⟩
        · rintro ⟨rfl | rfl, rfl⟩
          · exact nomatch granted.1.symm.trans hd
          · exact nomatch granted.2.symm.trans hd
        · exact id
      · obtain rfl := relies r' r hr hg
        have := hs.length_le
        simp only [layoutsDir, List.length_cons] at this
        omega
    · exact spares_other h hl ht (Discipline.mem_around.mpr (.inl rfl)) (Ne.symm he) rfl hg hd
  | @crash s s' s'' ts lost kept hp hc hk =>
    have held : t.notes ∈ kept.map Thread.notes := List.mem_map_of_mem ht'
    have same : s''.reads d n = s'.reads d n := by
      rw [hk.disk (List.ne_nil_of_mem held)]
      rfl
    refine same.trans (reads ?_)
    clear hk same
    have apart := (List.pairwise_append.mp ((hp.pairwise_iff (ownership π).symm).mp h.apart)).2.2
    induction hc with
    | refl => exact .refl _
    | tail _ hu ih =>
      obtain ⟨u, hu, o, k, he, htear⟩ := hu
      refine ih.trans (Disk.Tear.frame htear (spares_other h hl ht ?_ ?_ he hg hd))
      · exact hp.mem_iff.mpr (List.mem_append_left _ hu)
      · rintro rfl
        exact apart u hu u ht' r hg hg

/-- However processes are interleaved and killed, a root has at most one owner, who holds its
lock. Only the owner accesses the records of a root and removes its layouts, and as long as it
does nothing the records stay as they are. -/
theorem owners_apart (hp : Pool.Steps (processes π) (ownership π).Legal ⟨s, []⟩ p) :
    (p.threads.Pairwise fun t t' => ∀ r, t.notes r → ¬ t'.notes r) ∧
    (∀ t ∈ p.threads, ∀ r, t.notes r → p.state.locked r .ownerLock = true) ∧
    (∀ t ∈ p.threads, ∀ o k, t.rest = .op o k →
      (∀ d n r, rootOf d n = some r → o.Accesses d n → t.notes r) ∧
      ∀ d, o = .removeDirAll d → ∃ r layout, t.notes r ∧ d = layoutDir r layout) ∧
    ∀ p' t r d n, (ownership π).Legal p → Pool.Step (processes π) p p' → t ∈ p.threads →
      t ∈ p'.threads → t.notes r → rootOf d n = some r →
        p'.state.reads d n = p.state.reads d n := by
  have orderly : (ownership π).Orderly p := (Discipline.Orderly.empty s).steps hp
  refine ⟨orderly.apart, fun t ht => (orderly.relies t ht).1, fun t ht o k he => ?_,
    fun p' t r d n hl hs ht ht' hg hd => step_owned orderly hl hs ht ht' hg hd⟩
  have careful := orderly.careful t ht
  rw [he] at careful
  have granted : o.Granted t.notes t.notes := careful.1
  refine ⟨fun d n r hd ha => granted.accesses ha r hd, ?_⟩
  rintro d rfl
  exact granted

end

namespace Reference

def contended : Pool (LocalSig Keyed) (Disk (FileName Keyed) (Content Keyed))
    Process (Dir → Prop) :=
  let t : Thread (LocalSig Keyed) Process (Dir → Prop) :=
    ⟨.storage ["s"] [], fun _ => False, Process.program (.storage ["s"] [])⟩
  let x := t.advance (processes anything) (FsOp.perform []) 4 blank
  ⟨x.2, [t, x.1]⟩

theorem contended_steps :
    Pool.Steps (processes anything) (ownership anything).Legal ⟨blank, []⟩ contended := by
  refine .tail (.head ⟨.nil, .begin (.storage ["s"] [])⟩ (Pool.advance_steps (a := []) (b := [])
    (fun _ _ _ _ h => FsOp.perform_step anything_generous h) fun _ _ =>
      List.pairwise_singleton _ _))
    ⟨List.pairwise_singleton _ _, .begin _⟩

theorem owners_apart_contended : (∃ t ∈ contended.threads, t.notes ["s"]) ∧
    contended.threads.Pairwise fun t t' => ∀ r, t.notes r → ¬ t'.notes r :=
  ⟨⟨_, .tail _ (.head _), .inl rfl⟩, (owners_apart contended_steps).1⟩

end Reference

end HsmRs
