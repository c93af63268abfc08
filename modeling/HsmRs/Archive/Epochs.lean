import HsmRs.Archive.Durability
import HsmRs.Lib.Twins

/-! # Attempts do not depend on the controller epoch

Two runs of the archive whose calls differ in controller epochs only, side by side:
they are answered the same and leave the same disks, but for the epochs that the
records of attempts remember.
-/

namespace HsmRs

variable {κ α β : Type}

/-! ## What the controller epoch may change -/

def OperationContext.Alike (a b : OperationContext) : Prop :=
  sameAttempt a b ∧ (a.controllerEpoch = 0 ↔ b.controllerEpoch = 0)

def Prepared.Alike (p q : Prepared) : Prop :=
  sameAttempt p.context q.context ∧ p.key = q.key ∧ p.view = q.view ∧ p.target = q.target

/-- Contents that differ at most in the controller epoch of a recorded attempt. -/
inductive Content.Alike : Content κ → Content κ → Prop where
  | refl (c : Content κ) : Alike c c
  | prepared {p q : Prepared} : p.Alike q → Alike (.prepared p) (.prepared q)

namespace OperationContext.Alike

variable {a b : OperationContext}

theorem sameAttempt_iff (h : a.Alike b) {c : OperationContext} : sameAttempt c a ↔
    sameAttempt c b := by
  obtain ⟨⟨hi, ha⟩, -⟩ := h
  unfold sameAttempt
  rw [hi, ha]

theorem validate (h : a.Alike b) : a.validate = b.validate := by
  obtain ⟨⟨hi, ha⟩, hc⟩ := h
  unfold OperationContext.validate
  simp only [hi, ha, hc]

end OperationContext.Alike

/-- The file of an attempt is the same for all controllers. -/
theorem LocalArchive.preparedPath_eq [KeyHash κ] {a b : OperationContext} (h : sameAttempt a b)
    (archive : ArchiveKey) : (preparedPath a archive : FileName κ) = preparedPath b archive := by
  obtain ⟨hi, ha⟩ := h
  unfold preparedPath
  rw [hi, ha]

/-! ## Programs that differ in controller epochs only -/

/-- The two programs do the same on disks that are alike. -/
abbrev Io.Twin (R : α → β → Prop) (p : Io κ α) (q : Io κ β) : Prop :=
  p.run.Twin (FsOp.Coupled Content.Alike) (Agree R) q.run

def FsOp.Unread : FsOp (FileName κ) (Content κ) → Prop
  | .read _ _ => False
  | _ => True

theorem FsOp.Settles.unread {o : FsOp (FileName κ) (Content κ)} (h : o.Settles) : o.Unread := by
  cases o <;> trivial

theorem FsOp.Unread.coupled {o : FsOp (FileName κ) (Content κ)} (ho : o.Unread) :
    FsOp.Coupled Content.Alike o o Eq := by
  refine .same ?_
  rintro d n rfl
  exact ho

section Helpers

variable {d : Dir} {n : FileName κ} {R : α → β → Prop}

theorem twin_refl {p : Io κ α} (hp : p.run.Within FsOp.Unread) : Io.Twin Eq p p :=
  (Prog.Twin.refl (fun _ => FsOp.Unread.coupled) hp).mono fun a _ h => h ▸ Agree.refl Eq.refl a

theorem twin_uuid : Io.Twin Eq (uuid : Io κ String) uuid := twin_refl (within_ask.mpr trivial)

theorem twin_existsFile : Io.Twin Eq (existsFile d n) (existsFile d n) :=
  twin_refl (within_ask.mpr trivial)

theorem twin_syncFile : Io.Twin Eq (syncFile d n) (syncFile d n) :=
  twin_refl (within_io.mpr trivial)

theorem twin_syncDir : Io.Twin Eq (syncDir d : Io κ Unit) (syncDir d) :=
  twin_refl (within_io.mpr trivial)

theorem twin_newLayout : Io.Twin Eq (newLayout d : Io κ String) (newLayout d) :=
  twin_refl <| Prog.within_bind (within_ask.mpr trivial) fun _ =>
    Prog.within_bind (within_io.mpr trivial) fun _ =>
      Prog.within_bind (within_io.mpr trivial) fun _ => trivial

theorem twin_mapErr {g : HsmError → HsmError} {p : Io κ α} {q : Io κ β} (h : Io.Twin R p q) :
    Io.Twin R (mapErr g p) (mapErr g q) := by
  refine h.bind ?_
  rintro (e | a) (e' | b) hR
  · exact .ret (congrArg g hR)
  · exact hR.elim
  · exact hR.elim
  · exact .ret hR

theorem twin_readFile : Io.Twin Content.Alike (readFile d n) (readFile d n) := by
  refine .op .read ?_
  rintro (e | a) (e' | b) hR
  · exact .ret (congrArg HsmError.io hR)
  · exact hR.elim
  · exact hR.elim
  · exact .ret hR

theorem twin_readIfPresent : Io.Twin (Option.Rel Content.Alike) (LocalArchive.readIfPresent d n)
    (LocalArchive.readIfPresent d n) := by
  refine .op .read ?_
  rintro (e | a) (e' | b) hR
  · obtain rfl : e = e' := hR
    refine .ret ?_
    split
    · exact .none
    · exact Eq.refl _
  · exact hR.elim
  · exact hR.elim
  · exact .ret (.some hR)

theorem twin_decode {shape : Content κ → Option α} {shape' : Content κ → Option β}
    {c c' : Content κ} (h : Option.Rel R (shape c) (shape' c')) :
    Io.Twin R (decode shape c) (decode shape' c') := by
  unfold decode
  generalize shape c = a at h
  generalize shape' c' = b at h
  cases h with
  | none => exact Prog.Twin.run_throw
  | some h => exact Prog.Twin.run_pure h

theorem twin_digestFile [Crates] : Io.Twin Eq (digestFile d : Io κ _) (digestFile d) := by
  refine twin_readFile.run_bind fun c c' h => ?_
  cases h with
  | refl => cases c <;> exact .ret (Eq.refl _)
  | prepared => exact .ret (Eq.refl _)

theorem twin_writeJson {v w : Content κ} (h : v.Alike w) :
    Io.Twin Eq (writeJson d n v) (writeJson d n w) := by
  unfold writeJson
  refine twin_uuid.run_bind fun u _ hu => ?_
  subst hu
  have created : Io.Twin Eq (createNew d (.tmp u) v) (createNew d (.tmp u) w) := by
    refine .op (.create h) fun x _ hx => ?_
    subst hx
    exact .ret (Agree.refl Eq.refl _)
  refine created.run_bind fun _ _ _ => ?_
  refine twin_syncFile.run_bind fun _ _ _ => ?_
  refine Prog.Twin.run_bind (twin_refl (within_io.mpr trivial)) fun _ _ _ => ?_
  exact twin_mapErr twin_syncDir

theorem twin_publishReceipt {v : Content κ} :
    Io.Twin Eq (publishReceipt d n v) (publishReceipt d n v) := by
  refine twin_refl ?_
  refine Prog.within_bind (within_ask.mpr trivial) fun u => ?_
  refine Prog.within_bind (within_io.mpr trivial) fun _ => ?_
  refine Prog.within_bind (within_io.mpr trivial) fun _ => ?_
  refine Prog.within_bind (within_io.mpr trivial) fun _ => ?_
  exact Prog.within_bind (within_mapErr (within_io.mpr trivial)) fun _ =>
    ⟨trivial, fun _ => trivial⟩

theorem twin_withTransferLock {p : Io κ α} {q : Io κ β} (h : Io.Twin R p q) :
    Io.Twin R (withTransferLock d p) (withTransferLock d q) := by
  unfold withTransferLock
  refine Prog.Twin.run_bind (twin_refl (within_io.mpr trivial)) fun _ _ _ => ?_
  have locked : Io.Twin Eq (tryLock d .transferLock "local data session active: " : Io κ Unit)
      (tryLock d .transferLock "local data session active: ") :=
        twin_refl ⟨trivial, fun _ => trivial⟩
  refine locked.run_bind fun _ _ _ => ?_
  refine h.bind fun r r' hr => .op (FsOp.Unread.coupled trivial) fun _ _ _ => .ret hr

end Helpers

namespace LocalArchive

variable [KeyHash κ] [Crates] {self : LocalArchive} {archive : ArchiveKey}
  {ctx ctx' : OperationContext}

theorem twin_committed : Io.Twin Eq (self.committed archive : Io κ _) (self.committed archive) := by
  unfold committed
  refine Prog.Twin.run_bind (R := Eq) (.ret (Agree.refl Eq.refl _)) fun n _ hn => ?_
  subst hn
  refine twin_readIfPresent.run_bind fun c c' h => ?_
  cases h with
  | none => exact .ret (Eq.refl _)
  | @some c c' h =>
    refine Prog.Twin.run_bind (R := Eq) (twin_decode ?_) fun value _ hv => ?_
    · cases h with
      | refl => cases c <;> simp
      | prepared => exact .none
    subst hv
    refine Prog.Twin.run_guard Iff.rfl fun _ => ?_
    refine Prog.Twin.run_bind (R := Eq) (.ret (Agree.refl Eq.refl _)) fun e _ he => ?_
    subst he
    refine twin_digestFile.run_bind fun x _ hx => ?_
    subst hx
    refine Prog.Twin.run_guard Iff.rfl fun _ => ?_
    refine twin_syncFile.run_bind fun _ _ _ => ?_
    refine twin_syncDir.run_bind fun _ _ _ => ?_
    exact twin_syncDir.run_bind fun _ _ _ => .ret (Eq.refl _)

theorem twin_inspect : Io.Twin Eq (self.inspect archive : Io κ _) (self.inspect archive) := by
  refine twin_committed.run_bind fun value _ hv => ?_
  subst hv
  cases value <;> exact .ret (Eq.refl _)

theorem twin_openReceipt {receipt : ArchiveReceipt} :
    Io.Twin Eq (self.openReceipt receipt : Io κ _) (self.openReceipt receipt) := by
  refine twin_committed.run_bind fun value _ hv => ?_
  subst hv
  cases value with
  | none => exact .ret (Eq.refl _)
  | some c => exact Prog.Twin.run_guard Iff.rfl fun _ => .ret (Eq.refl _)

omit [KeyHash κ] [Crates] in
theorem twin_decodePrepared {c c' : Content κ} (h : c.Alike c') :
    Io.Twin Prepared.Alike (decodePrepared c) (decodePrepared c') := by
  refine twin_decode ?_
  cases h with
  | refl =>
    cases c <;> first
      | exact .none
      | exact .some ⟨⟨rfl, rfl⟩, rfl, rfl, rfl⟩
  | prepared h => exact .some h

omit [KeyHash κ] [Crates] in
theorem alike_owns {p q : Prepared} (h : p.Alike q) (hc : ctx.Alike ctx') :
    sameAttempt p.context ctx ↔ sameAttempt q.context ctx' := by
  rw [hc.sameAttempt_iff]
  unfold sameAttempt
  rw [h.1.1, h.1.2]

theorem twin_prepare {view : DataView} (hc : ctx.Alike ctx') :
    Io.Twin Eq (self.prepare ctx archive view : Io κ _) (self.prepare ctx' archive view) := by
  unfold prepare
  refine Prog.Twin.run_bind (R := Eq) ?_ fun _ _ _ => ?_
  · rw [hc.validate]
    exact .ret (Agree.refl Eq.refl _)
  refine twin_committed.run_bind fun value _ hv => ?_
  subst hv
  refine Prog.Twin.run_guard Iff.rfl fun _ => ?_
  dsimp only
  rw [preparedPath_eq hc.1]
  refine twin_existsFile.run_bind fun there _ ht => ?_
  subst ht
  cases there with
  | true =>
    refine twin_readFile.run_bind fun c c' h => ?_
    refine (twin_decodePrepared h).run_bind fun p q hp => ?_
    refine Prog.Twin.run_guard ?_ fun _ => .ret hp.2.2.2
    rw [alike_owns hp hc, hp.2.1, hp.2.2.1]
  | false =>
    refine twin_newLayout.run_bind fun u _ hu => ?_
    subst hu
    refine Prog.Twin.run_bind (twin_writeJson (.prepared ?_)) fun _ _ _ => .ret (Eq.refl _)
    exact ⟨hc.1, rfl, rfl, rfl⟩

theorem twin_sealAndPublish {target : ArchiveTarget} {view : DataView}
    {evidence : TransferEvidence} {payload : Dir} :
    Io.Twin Eq (self.sealAndPublish target view evidence payload : Io κ _)
      (self.sealAndPublish target view evidence payload) := by
  unfold sealAndPublish
  refine twin_digestFile.run_bind fun x _ hx => ?_
  subst hx
  refine Prog.Twin.run_guard Iff.rfl fun _ => ?_
  refine twin_syncFile.run_bind fun _ _ _ => ?_
  refine twin_syncDir.run_bind fun _ _ _ => ?_
  refine (twin_writeJson (.refl _)).run_bind fun _ _ _ => ?_
  refine twin_uuid.run_bind fun u _ hu => ?_
  subst hu
  refine Prog.Twin.run_bind (R := Eq) (.ret (Agree.refl Eq.refl _)) fun n _ hn => ?_
  subst hn
  exact twin_publishReceipt.run_bind fun _ _ _ => .ret (Eq.refl _)

theorem twin_commit {target : ArchiveTarget} {view : DataView} {evidence : TransferEvidence}
    (hc : ctx.Alike ctx') : Io.Twin Eq (self.commit ctx target view evidence : Io κ _)
      (self.commit ctx' target view evidence) := by
  unfold commit
  refine Prog.Twin.run_bind (R := Eq) ?_ fun _ _ _ => ?_
  · rw [hc.validate]
    exact .ret (Agree.refl Eq.refl _)
  rw [preparedPath_eq hc.1]
  refine twin_readFile.run_bind fun c c' h => ?_
  refine (twin_decodePrepared h).run_bind fun p q hp => ?_
  refine Prog.Twin.run_guard ?_ fun _ => ?_
  · rw [alike_owns hp hc, hp.2.2.1, hp.2.2.2]
  refine twin_committed.run_bind fun value _ hv => ?_
  subst hv
  cases value with
  | some o =>
    dsimp only
    split <;> exact .ret (Eq.refl _)
  | none =>
    refine Prog.Twin.run_bind (R := Eq) (.ret (Agree.refl Eq.refl _)) fun e _ he => ?_
    subst he
    exact twin_withTransferLock twin_sealAndPublish

theorem twin_resumeCommit {target : ArchiveTarget} {view : DataView} (hc : ctx.Alike ctx') :
    Io.Twin Eq (self.resumeCommit ctx target view : Io κ _)
      (self.resumeCommit ctx' target view) := by
  unfold resumeCommit
  refine Prog.Twin.run_bind (R := Eq) (.ret (Agree.refl Eq.refl _)) fun e _ he => ?_
  subst he
  refine twin_existsFile.run_bind fun there _ ht => ?_
  subst ht
  cases there with
  | true => exact (twin_commit hc).run_bind fun r _ hr => hr ▸ .ret (Eq.refl _)
  | false => exact .ret (Eq.refl _)

omit [KeyHash κ] [Crates] in
theorem twin_load {root : Dir} {id : String} :
    Io.Twin Eq (LocalArchive.load root id : Io κ _) (LocalArchive.load root id) := by
  have directories : (do
      createDirAll (objectsDir root)
      createDirAll (attemptsDir root)
      syncDir root
      return ⟨root, id⟩ : Io κ LocalArchive).run.Within FsOp.Unread :=
    Prog.within_bind (within_createDirAll.mono fun _ => FsOp.Settles.unread) fun _ =>
      Prog.within_bind (within_createDirAll.mono fun _ => FsOp.Settles.unread) fun _ =>
        Prog.within_bind (within_io.mpr trivial) fun _ => trivial
  unfold load
  refine Prog.Twin.run_guard Iff.rfl fun _ => ?_
  refine twin_existsFile.run_bind fun there _ ht => ?_
  subst ht
  cases there with
  | false => exact (twin_writeJson (.refl _)).run_bind fun _ _ _ => twin_refl directories
  | true =>
    refine twin_readFile.run_bind fun c c' h => ?_
    refine Prog.Twin.run_bind (R := Eq) (twin_decode ?_) fun prior _ hp => ?_
    · cases h with
      | refl => cases c <;> simp
      | prepared => exact .none
    subst hp
    exact Prog.Twin.run_guard Iff.rfl fun _ => twin_refl directories

omit [KeyHash κ] [Crates] in
theorem twin_open {root : Dir} {id : String} :
    Io.Twin Eq (LocalArchive.open root id : Io κ _) (LocalArchive.open root id) := by
  unfold LocalArchive.open
  refine Prog.Twin.run_bind (twin_refl (within_lockRoot.mono fun _ => FsOp.Settles.unread))
    fun _ _ _ => ?_
  refine twin_load.bind ?_
  rintro (e | a) (e' | b) h
  · obtain rfl : e = e' := h
    exact .op (FsOp.Unread.coupled trivial) fun _ _ _ => .ret (Eq.refl _)
  · exact h.elim
  · exact h.elim
  · exact .ret h

end LocalArchive

/-! ## Runs that differ in controller epochs only -/

/-- What happens to an archive: a call and its answer, a crash in a call, an open and its
answer, one that crashes, a crash between calls, and what others do. -/
inductive Vault.Event
  | called (c : BackendCall) (x : c.Ans)
  | crashed (c : BackendCall)
  | opened (id : String) (x : HsmResult LocalArchive)
  | cut (id : String)
  | died
  | between

inductive BackendCall.Alike : BackendCall → BackendCall → Prop where
  | refl (c : BackendCall) : Alike c c
  | prepare {ctx ctx' : OperationContext} {key : ArchiveKey} {view : DataView} :
      ctx.Alike ctx' → Alike (.prepare ctx key view) (.prepare ctx' key view)
  | resumeCommit {ctx ctx' : OperationContext} {target : ArchiveTarget} {view : DataView} :
      ctx.Alike ctx' → Alike (.resumeCommit ctx target view) (.resumeCommit ctx' target view)
  | commit {ctx ctx' : OperationContext} {target : ArchiveTarget} {view : DataView}
      {evidence : TransferEvidence} : ctx.Alike ctx' →
      Alike (.commit ctx target view evidence) (.commit ctx' target view evidence)

inductive Vault.Event.Alike : Vault.Event → Vault.Event → Prop where
  | refl (e : Vault.Event) : Alike e e
  | prepare {ctx ctx' : OperationContext} {key : ArchiveKey} {view : DataView}
      {x : HsmResult ArchiveTarget} : ctx.Alike ctx' →
      Alike (.called (.prepare ctx key view) x) (.called (.prepare ctx' key view) x)
  | resumeCommit {ctx ctx' : OperationContext} {target : ArchiveTarget} {view : DataView}
      {x : HsmResult (Option ArchiveReceipt)} : ctx.Alike ctx' →
      Alike (.called (.resumeCommit ctx target view) x) (.called (.resumeCommit ctx' target view) x)
  | commit {ctx ctx' : OperationContext} {target : ArchiveTarget} {view : DataView}
      {evidence : TransferEvidence} {x : HsmResult ArchiveReceipt} : ctx.Alike ctx' →
      Alike (.called (.commit ctx target view evidence) x)
        (.called (.commit ctx' target view evidence) x)
  | crashed {c c' : BackendCall} : c.Alike c' → Alike (.crashed c) (.crashed c')

/-- The surroundings do not look at the controller epochs of recorded attempts. -/
structure Setting.Blind (env : Setting κ) : Prop where
  crash : ∀ {s s' t}, s.Alike Content.Alike t → env.crash s s' →
    ∃ t', env.crash t t' ∧ s'.Alike Content.Alike t'
  opens : ∀ {s t}, s.Alike Content.Alike t → env.opens s → env.opens t
  between : ∀ {s s' t}, s.Alike Content.Alike t → env.between s s' →
    ∃ t', env.between t t' ∧ s'.Alike Content.Alike t'

def Vault.Alike (v w : Vault κ) : Prop :=
  v.disk.Alike Content.Alike w.disk ∧ v.handle = w.handle

theorem Setting.powered_blind (root : Dir) : (Setting.powered root : Setting κ).Blind where
  crash {s s' t} h hx := by
    rcases hx with rfl | hp
    · exact ⟨_, .inl rfl, h.reboot⟩
    · obtain ⟨t', ht, ha⟩ := h.powerLoss .refl hp
      exact ⟨t', .inr ht, ha⟩
  opens {s t} h ho p hp hd := by
    rw [h.dir] at hd
    rw [h.safeDir]
    exact ho p hp hd
  between {s s' t} h hb := by
    have guarded : ∀ d n, Guarded root t d n → Guarded root s d n := fun d n hg =>
      ⟨hg.1, hg.2.1, fun hn hs => hg.2.2 hn (h.lookup_none.mpr hs)⟩
    obtain ⟨t', ht, ha⟩ := h.frame .refl hb.files
    refine ⟨t', ⟨ht.mono guarded, fun p hp hg => ?_, fun tree => ?_⟩, ha⟩
    · have := hb.path p hp ⟨by rw [← h.dir]; exact hg.1, by rw [← h.safeDir]; exact hg.2⟩
      exact ⟨by rw [ha.dir]; exact this.1, by rw [ha.safeDir]; exact this.2⟩
    · exact (hb.tree (tree.of_dir h.dir.symm)).of_dir ha.dir

section

variable [DecidableEq κ] [KeyHash κ] [Crates] {π : Policy (FileName κ) (Content κ)}
  {env : Setting κ} {root : Dir} {v v' w : Vault κ}

namespace Vault

/-- How an event changes the archive. -/
def Acts (π : Policy (FileName κ) (Content κ)) (env : Setting κ) (root : Dir) (v v' : Vault κ) :
    Event → Prop
  | .called c x => ∃ a, v.handle = some a ∧
      Runs (fsMachine π) (Stores.backendCall a c) v.disk x v'.disk ∧ v'.handle = some a ∧
      v'.begun = c :: v.begun
  | .crashed c => ∃ a s, v.handle = some a ∧
      Cuts (fsMachine π) (Stores.backendCall a c) v.disk s ∧ env.crash s v'.disk ∧
      v'.handle = none ∧ v'.begun = c :: v.begun
  | .opened id x => v.handle = none ∧ env.opens v.disk ∧
      Runs (fsMachine π) (LocalArchive.open root id).run v.disk x v'.disk ∧
      v'.handle = x.toOption ∧ v'.begun = v.begun
  | .cut id => ∃ s, v.handle = none ∧ env.opens v.disk ∧
      Cuts (fsMachine π) (LocalArchive.open root id : Io κ _).run v.disk s ∧ env.crash s v'.disk ∧
      v'.handle = none ∧ v'.begun = v.begun
  | .died => env.crash v.disk v'.disk ∧ v'.handle = none ∧ v'.begun = v.begun
  | .between => env.between v.disk v'.disk ∧ v'.handle = v.handle ∧ v'.begun = v.begun

theorem step_iff : Step π env root v v' ↔ ∃ e, Acts π env root v v' e := by
  obtain ⟨s, handle, begun⟩ := v
  obtain ⟨s', handle', begun'⟩ := v'
  constructor
  · rintro (hr | ⟨hc, hx⟩ | ⟨ho, hr⟩ | ⟨ho, hr⟩ | ⟨ho, hc, hx⟩ | hx | hb)
    · exact ⟨.called _ _, _, rfl, hr, rfl, rfl⟩
    · exact ⟨.crashed _, _, _, rfl, hc, hx, rfl, rfl⟩
    · exact ⟨.opened _ _, rfl, ho, hr, rfl, rfl⟩
    · exact ⟨.opened _ _, rfl, ho, hr, rfl, rfl⟩
    · exact ⟨.cut _, _, rfl, ho, hc, hx, rfl, rfl⟩
    · exact ⟨.died, hx, rfl, rfl⟩
    · exact ⟨.between, hb, rfl, rfl⟩
  · rintro ⟨c | c | ⟨id, x⟩ | id | _ | _, h⟩
    · obtain ⟨a, rfl, hr, rfl, rfl⟩ := h
      exact .call hr
    · obtain ⟨a, t, rfl, hc, hx, rfl, rfl⟩ := h
      exact .crash hc hx
    · obtain ⟨rfl, ho, hr, rfl, rfl⟩ := h
      cases x with
      | ok a => exact .opened ho hr
      | error e => exact .refused ho hr
    · obtain ⟨t, rfl, ho, hc, hx, rfl, rfl⟩ := h
      exact .cut ho hc hx
    · obtain ⟨hx, rfl, rfl⟩ := h
      exact .died hx
    · obtain ⟨hb, rfl, rfl⟩ := h
      exact .between hb

inductive Happens (π : Policy (FileName κ) (Content κ)) (env : Setting κ) (root : Dir) :
    List Event → Vault κ → Vault κ → Prop where
  | nil (v : Vault κ) : Happens π env root [] v v
  | cons {e : Event} {es : List Event} {u v w : Vault κ} : Acts π env root u v e →
      Happens π env root es v w → Happens π env root (e :: es) u w

theorem steps_iff : Steps π env root v v' ↔ ∃ es, Happens π env root es v v' := by
  constructor
  · intro h
    induction h using Relation.ReflTransGen.head_induction_on with
    | refl => exact ⟨[], .nil _⟩
    | head hs _ ih =>
      obtain ⟨es, hes⟩ := ih
      obtain ⟨e, he⟩ := step_iff.mp hs
      exact ⟨e :: es, .cons he hes⟩
  · rintro ⟨es, h⟩
    induction h with
    | nil => exact .refl
    | cons he _ ih => exact .head (step_iff.mpr ⟨_, he⟩) ih

omit [DecidableEq κ] [KeyHash κ] [Crates] in
theorem alike_refl (ctx : OperationContext) : ctx.Alike ctx := ⟨⟨rfl, rfl⟩, Iff.rfl⟩

omit [DecidableEq κ] in
theorem twin_backendCall (a : LocalArchive) (c : BackendCall) :
    (Stores.backendCall a c : Prog (LocalSig κ) _).Twin (FsOp.Coupled Content.Alike) Eq
      (Stores.backendCall a c) := by
  cases c with
  | inspect => exact LocalArchive.twin_inspect.mono fun _ _ => Agree.eq
  | prepare => exact (LocalArchive.twin_prepare (alike_refl _)).mono fun _ _ => Agree.eq
  | resumeCommit => exact (LocalArchive.twin_resumeCommit (alike_refl _)).mono fun _ _ => Agree.eq
  | commit => exact (LocalArchive.twin_commit (alike_refl _)).mono fun _ _ => Agree.eq
  | «open» => exact LocalArchive.twin_openReceipt.mono fun _ _ => Agree.eq

omit [DecidableEq κ] in
theorem twin_crashed {c c' : BackendCall} (h : c.Alike c') (a : LocalArchive) :
    ∃ R : c.Ans → c'.Ans → Prop, (Stores.backendCall a c : Prog (LocalSig κ) _).Twin
      (FsOp.Coupled Content.Alike) R (Stores.backendCall a c') := by
  cases h with
  | refl c => exact ⟨Eq, twin_backendCall a c⟩
  | prepare h => exact ⟨_, LocalArchive.twin_prepare h⟩
  | resumeCommit h => exact ⟨_, LocalArchive.twin_resumeCommit h⟩
  | commit h => exact ⟨_, LocalArchive.twin_commit h⟩

/-- Whatever happens to one archive can happen to the other, with the same answer. -/
theorem Acts.alike (hπ : π.Blind Content.Alike) (henv : env.Blind) {e e' : Event} (he : e.Alike e')
    (hv : v.Alike w) (h : Acts π env root v v' e) : ∃ w', Acts π env root w w' e' ∧
    v'.Alike w' := by
  have couples := fsMachine_couples (E := @Content.Alike κ) .refl hπ
  obtain ⟨hd, hh⟩ := hv
  cases he with
  | prepare hc =>
    obtain ⟨a, ha, hr, ha', -⟩ := h
    obtain ⟨_, t', hr', hx, hd'⟩ := (LocalArchive.twin_prepare hc).runs couples hd hr
    obtain rfl := Agree.eq hx
    exact ⟨⟨t', some a, _⟩, ⟨a, hh.symm.trans ha, hr', rfl, rfl⟩, hd', ha'⟩
  | resumeCommit hc =>
    obtain ⟨a, ha, hr, ha', -⟩ := h
    obtain ⟨_, t', hr', hx, hd'⟩ := (LocalArchive.twin_resumeCommit hc).runs couples hd hr
    obtain rfl := Agree.eq hx
    exact ⟨⟨t', some a, _⟩, ⟨a, hh.symm.trans ha, hr', rfl, rfl⟩, hd', ha'⟩
  | commit hc =>
    obtain ⟨a, ha, hr, ha', -⟩ := h
    obtain ⟨_, t', hr', hx, hd'⟩ := (LocalArchive.twin_commit hc).runs couples hd hr
    obtain rfl := Agree.eq hx
    exact ⟨⟨t', some a, _⟩, ⟨a, hh.symm.trans ha, hr', rfl, rfl⟩, hd', ha'⟩
  | crashed hc =>
    obtain ⟨a, s, ha, hr, hx, ha', -⟩ := h
    obtain ⟨R, ht⟩ := @twin_crashed κ _ _ _ _ hc a
    obtain ⟨t, hr', hd'⟩ := ht.cuts couples hd hr
    obtain ⟨t', hx', hd'⟩ := henv.crash hd' hx
    exact ⟨⟨t', none, _⟩, ⟨a, t, hh.symm.trans ha, hr', hx', rfl, rfl⟩, hd', ha'⟩
  | refl =>
    cases e with
    | called c x =>
      obtain ⟨a, ha, hr, ha', -⟩ := h
      obtain ⟨_, t', hr', rfl, hd'⟩ := (twin_backendCall a c).runs couples hd hr
      exact ⟨⟨t', some a, _⟩, ⟨a, hh.symm.trans ha, hr', rfl, rfl⟩, hd', ha'⟩
    | crashed c =>
      obtain ⟨a, s, ha, hr, hx, ha', -⟩ := h
      obtain ⟨t, hr', hd'⟩ := (twin_backendCall a c).cuts couples hd hr
      obtain ⟨t', hx', hd'⟩ := henv.crash hd' hx
      exact ⟨⟨t', none, _⟩, ⟨a, t, hh.symm.trans ha, hr', hx', rfl, rfl⟩, hd', ha'⟩
    | opened id x =>
      obtain ⟨ha, ho, hr, ha', -⟩ := h
      obtain ⟨_, t', hr', hx, hd'⟩ := LocalArchive.twin_open.runs couples hd hr
      obtain rfl := Agree.eq hx
      exact ⟨⟨t', _, _⟩, ⟨hh.symm.trans ha, henv.opens hd ho, hr', rfl, rfl⟩, hd', ha'⟩
    | cut id =>
      obtain ⟨s, ha, ho, hr, hx, ha', -⟩ := h
      obtain ⟨t, hr', hd'⟩ := LocalArchive.twin_open.cuts couples hd hr
      obtain ⟨t', hx', hd'⟩ := henv.crash hd' hx
      exact ⟨⟨t', none, _⟩, ⟨t, hh.symm.trans ha, henv.opens hd ho, hr', hx', rfl, rfl⟩, hd', ha'⟩
    | died =>
      obtain ⟨hx, ha', -⟩ := h
      obtain ⟨t', hx', hd'⟩ := henv.crash hd hx
      exact ⟨⟨t', none, _⟩, ⟨hx', rfl, rfl⟩, hd', ha'⟩
    | between =>
      obtain ⟨hb, ha', -⟩ := h
      obtain ⟨t', hb', hd'⟩ := henv.between hd hb
      exact ⟨⟨t', w.handle, _⟩, ⟨hb', rfl, rfl⟩, hd', ha'.trans hh⟩

theorem Happens.alike (hπ : π.Blind Content.Alike) (henv : env.Blind) {es es' : List Event}
    (he : List.Forall₂ Event.Alike es es') (hv : v.Alike w) (h : Happens π env root es v v') :
    ∃ w', Happens π env root es' w w' ∧ v'.Alike w' := by
  induction h generalizing w es' with
  | nil v =>
    cases he
    exact ⟨w, .nil w, hv⟩
  | cons ha _ ih =>
    obtain _ | ⟨he, hes⟩ := he
    obtain ⟨w₁, hw₁, hv₁⟩ := ha.alike hπ henv he hv
    obtain ⟨w', hw', hv'⟩ := ih hes hv₁
    exact ⟨w', .cons hw₁ hw', hv'⟩

end Vault

end

end HsmRs
