import HsmRs.System.Archiving

/-! # A recall that is started again

The stages of `recall`: nothing has been done, a private layout has been reserved, or it has
been published. A process that finds a layout reserved fills and publishes it, unless one
before it has been killed after it had sealed the layout: the mover refuses a destination
that is sealed, and then no process comes to an end.
-/

namespace HsmRs

section

variable {κ : Type} [DecidableEq κ] [KeyHash κ] [Crates] {π : Policy (FileName κ) (Content κ)}
  {s s' : Disk (FileName κ) (Content κ)} {stores : Stores κ} {layout : String}
  {C : Disk (FileName κ) (Content κ) → Prop}

/-- A recall of one entity from one anchor: the operation, the entity as it is before, and the
payload of the anchor's object. -/
structure Retrieval where
  roots : Roots
  backend : String
  ctx : OperationContext
  place : ArchiveKey
  entity : Entity
  anchor : ArchiveReceipt
  payload : Dir
  bytes : Bytes
  named : backend ≠ ""
  qualified : LocalStorage.qualify ctx = .ok ()
  offline : entity.public.residency = .offline
  published : entity.published = none
  selected : entity.public.anchors.find? (fun a => a.key = place) = some anchor
  attests : anchor.Attests entity.public.data place entity.public.length entity.public.digest

namespace Retrieval

variable {w : Retrieval} {st : State κ}

def data (w : Retrieval) : DataKey := w.entity.public.data

def archive (w : Retrieval) : LocalArchive := ⟨w.roots.archive, w.backend⟩

def target (w : Retrieval) (layout : String) : RecallTarget :=
  ⟨w.data, layout, w.anchor.key, endpoint (layoutDir w.roots.storage layout)⟩

structure Reserves (w : Retrieval) (layout : String) (st : State κ) : Prop where
  current : st.entity w.data = .ok w.entity
  unviewed : ¬ st.views.Any (fun v => v.view.data = w.data)
  alone : ∀ l o, st.recalls.lookup l = some o → o.target.data = w.data → l = layout
  reserved : st.recalls.lookup layout = some ⟨w.ctx, w.target layout, w.anchor⟩
  unfinished : st.completed.lookup w.ctx.operationId = none
  saved : st.steps.lookup (key (.step w.ctx .prepareRecall)) =
    some ⟨key (.request w.ctx (.prepareRecall w.entity.public w.anchor)),
      .ok (.target (w.target layout))⟩
  new : st.steps.lookup (key (.step w.ctx .commitRecall)) = none

inductive Going (w : Retrieval) (st : State κ) (s : Disk (FileName κ) (Content κ)) : Prop
  | fresh : st.Resting w.data w.entity → st.Unused w.ctx.operationId → Going w st s
  | reserved {layout : String} : w.Reserves layout st →
      s.dir (layoutDir w.roots.storage layout) = true → Going w st s

structure Finished (w : Retrieval) (layout : String) (st : State κ)
    (s : Disk (FileName κ) (Content κ)) : Prop where
  rest : st.Resting w.data ⟨w.entity.public.recalled, some layout⟩
  recorded : st.completed.lookup w.ctx.operationId =
    some ⟨w.ctx, w.data, .«recall» w.place, w.entity.public.recalled⟩
  holds : s.Holds (layoutDir w.roots.storage layout) w.bytes

def Stage (w : Retrieval) (st : State κ) (s : Disk (FileName κ) (Content κ)) : Prop :=
  w.Going st s ∨ ∃ layout, w.Finished layout st s

/-- The layout that has been reserved is sealed, as one that is published. -/
def Blocked (w : Retrieval) (st : State κ) (s : Disk (FileName κ) (Content κ)) : Prop :=
  ∃ layout, st.recalls.lookup layout = some ⟨w.ctx, w.target layout, w.anchor⟩ ∧
    s.lookup (layoutDir w.roots.storage layout) .sealed ≠ none

theorem Going.still {K : Dir → FileName κ → Prop} (h : w.Going st s) (hf : Frame K s s')
    (hk : ∀ d n, Steadfast d n → K d n) : w.Going st s' := by
  cases h with
  | fresh rest unused => exact .fresh rest unused
  | reserved reserves dir =>
    exact .reserved reserves (hf.dir _ .data (hk _ _ ⟨id, by simp, by simp⟩) dir)

theorem Stage.still {K : Dir → FileName κ → Prop} (h : w.Stage st s) (hf : Frame K s s')
    (hk : ∀ d n, Steadfast d n → K d n) : w.Stage st s' := by
  rcases h with h | ⟨layout, h⟩
  · exact .inl (h.still hf hk)
  · exact .inr ⟨layout, { h with holds := h.holds.frame hf (hk _ _ ⟨id, by simp, by simp⟩) }⟩

omit [DecidableEq κ] [KeyHash κ] in
theorem Blocked.of_frame {K : Dir → FileName κ → Prop} (h : w.Blocked st s') (hf : Frame K s s')
    (hk : ∀ d n, Steadfast d n → K d n) : w.Blocked st s := by
  obtain ⟨layout, hr, mark⟩ := h
  exact ⟨layout, hr, fun hn => mark (hf.absent (hk _ _ ⟨id, by simp, by simp⟩) hn)⟩

omit [DecidableEq κ] [KeyHash κ] in
theorem Blocked.frame {K : Dir → FileName κ → Prop} (h : w.Blocked st s) (hf : Frame K s s')
    (hk : ∀ d n, Steadfast d n → K d n) : w.Blocked st s' := by
  obtain ⟨layout, hr, mark⟩ := h
  obtain ⟨⟨c, x⟩, hm⟩ := Option.ne_none_iff_exists'.mp mark
  obtain ⟨y, hy⟩ := hf.still (hk _ _ ⟨id, by simp, by simp⟩) ⟨x, hm⟩
  exact ⟨layout, hr, by simp [hy]⟩

def errand (w : Retrieval) : Errand κ where
  roots := w.roots
  backend := w.backend
  named := w.named
  stage st s := w.archive.Archived w.anchor w.bytes w.payload s ∧ w.Stage st s
  steady h hf := by
    refine ⟨h.1.frame hf ⟨id, ?_, ?_⟩ ⟨id, by simp, by simp⟩, h.2.still hf fun _ _ hk => hk⟩
    · simp [LocalArchive.receiptName]
    · simp [LocalArchive.receiptName]

/-- The metadata on the disk have a layout reserved that is sealed. -/
def Stranded (w : Retrieval) (s : Disk (FileName κ) (Content κ)) : Prop :=
  ∃ st, s.lookup w.roots.storage .state = some ⟨.state st, true⟩ ∧ w.Blocked st s

theorem archive_eq (h : w.errand.Running stores s) : stores.archive = w.archive := by
  obtain ⟨_, root, id⟩ := stores
  obtain rfl := h.root'
  obtain rfl := h.backend
  rfl

omit [DecidableEq κ] in
theorem payload_ne (h : w.archive.Archived w.anchor w.bytes w.payload s) :
    w.payload ≠ layoutDir w.roots.storage layout := fun he =>
  Roots.off h.below (he ▸ suffix_layoutDir)

omit [DecidableEq κ] in
theorem measured (h : w.archive.Archived w.anchor w.bytes w.payload s) :
    w.bytes.length = w.entity.public.length ∧ digestOf w.bytes = w.entity.public.digest :=
  ⟨h.length.symm.trans w.attests.length_eq, h.digest.symm.trans w.attests.digest_eq⟩

/-- A layout that is blocked is the one that the stage has reserved. -/
theorem Stage.blocked (h : w.Stage st s) (hb : w.Blocked st s) : ∃ layout, w.Reserves layout st ∧
    s.dir (layoutDir w.roots.storage layout) = true ∧
    s.lookup (layoutDir w.roots.storage layout) .sealed ≠ none := by
  obtain ⟨layout, hr, mark⟩ := hb
  rcases h with h | ⟨layout', h⟩
  · cases h with
    | fresh rest => exact (Table.not_any_iff.mp rest.unrecalled _ _ hr rfl).elim
    | reserved reserves dir =>
      obtain rfl := reserves.alone _ _ hr rfl
      exact ⟨layout, reserves, dir, mark⟩
  · exact (Table.not_any_iff.mp h.rest.unrecalled _ _ hr rfl).elim

/-- A process has the stores open, and a layout of its own that it may write. -/
structure Reserved (w : Retrieval) (layout : String) (stores : Stores κ)
    (s : Disk (FileName κ) (Content κ)) : Prop where
  running : w.errand.Running stores s
  reserves : w.Reserves layout stores.storage.state
  dir : s.dir (layoutDir w.roots.storage layout) = true
  unsealed : s.lookup (layoutDir w.roots.storage layout) .sealed = none

structure Over (w : Retrieval) (stores : Stores κ) (result : EntityState) (stores' : Stores κ)
    (s' : Disk (FileName κ) (Content κ)) : Prop where
  running : w.errand.Running stores' s'
  archive : stores'.archive = stores.archive
  result : result = w.entity.public.recalled
  finished : ∃ layout, w.Finished layout stores'.storage.state s'
  unused : ∀ op, w.ctx.operationId ≠ op → stores.storage.state.Unused op →
    stores'.storage.state.Unused op

section

variable (inj : Function.Injective (key : Keyed → κ))
include inj

theorem Reserves.of_reserving (rest : st.Resting w.data w.entity)
    (unused : st.Unused w.ctx.operationId) :
    w.Reserves layout (st.reserving w.ctx w.entity w.anchor (w.target layout)) where
  current := rest.current
  unviewed := rest.unviewed
  alone l o ho hd := by
    simp only [State.reserving, State.stepped, State.record, Table.lookup_insert] at ho
    split at ho
    · assumption
    · exact (Table.not_any_iff.mp rest.unrecalled l o ho hd).elim
  reserved := by simp [State.reserving, State.stepped, State.record, target]
  unfinished := unused.completed
  saved := by simp [State.reserving, State.stepped, State.record, StepRequest.name]
  new := (lookup_record inj fun h => by cases h.2).trans (unused.steps _ _ rfl)

omit inj in
theorem Reserves.published {evidence : TransferEvidence} (h : w.Reserves layout st)
    (holds : s.Holds (layoutDir w.roots.storage layout) w.bytes) :
    w.Finished layout (st.publishing w.ctx w.entity (w.target layout) evidence) s where
  rest :=
    { current := State.entity_insert h.current rfl rfl rfl rfl
      unviewed := h.unviewed
      unrecalled := by
        rw [Table.not_any_iff]
        intro l o ho hd
        simp only [State.publishing, State.stepped, State.record, Table.lookup_erase] at ho
        split at ho
        · cases ho
        · rename_i hn
          exact hn (h.alone l o ho hd) }
  recorded := by
    simp [State.publishing, State.stepped, State.record, target, w.attests.key_eq]
  holds := holds

omit inj in
theorem into_eq (h : w.errand.Running stores s) :
    stores.storage.into w.entity w.anchor layout = w.target layout := by
  have hroot : stores.storage.root = w.roots.storage := h.root
  rw [LocalStorage.into, hroot]
  rfl

variable (kind : π.Kind)
include kind

theorem reserve_endures (h : w.errand.Running stores s) (going : w.Going stores.storage.state s)
    (free : ¬ w.Blocked stores.storage.state s) :
    Endures (fsMachine π) w.errand.Paused
      (tried (stores.storage.prepareRecall w.ctx w.entity.public w.anchor)) s
      fun x s' => ∃ layout, x.1 = w.target layout ∧
        w.Reserved layout { stores with storage := x.2 } s' ∧
        ∀ op, w.ctx.operationId ≠ op → stores.storage.state.Unused op → x.2.state.Unused op := by
  have ha := archive_eq h
  have hroot : stores.storage.root = w.roots.storage := h.root
  have archived := h.stage.1
  cases going with
  | fresh rest unused =>
    refine (LocalStorage.prepareRecall_endures kind.toSmooth (fun _ _ hc hf => hc.frame hf) h.paused
      (fun layout s₁ s' hd _ hc hf hp => ?_) h.storage w.qualified unused rest w.published
      (List.mem_of_find?_eq_some w.selected)).mono (fun _ h => h) ?_
    · rw [into_eq h, hroot] at hp
      rw [hroot] at hd
      exact hc.placed hp h.schema ⟨archived.frame hf (fun h => h) fun h => h,
        .inl (.reserved (.of_reserving inj rest unused) hd)⟩
    rintro ⟨_, storage⟩ s' ⟨layout, rfl, hd, unsealed, turned⟩
    dsimp only at turned ⊢
    rw [into_eq h] at turned ⊢
    rw [hroot] at hd unsealed
    have reserves : w.Reserves layout _ := .of_reserving inj rest unused
    have running := h.turned turned rfl ⟨ha ▸ h.archived turned (ha ▸ archived),
      .inl (.reserved reserves hd)⟩
    obtain rfl := turned.handle
    exact ⟨layout, rfl, ⟨running, reserves, hd, unsealed⟩, fun op hne hu =>
      hu.record inj hne rfl rfl⟩
  | @reserved layout reserves dir =>
    refine Endures.mono (LocalStorage.step_replays h.storage w.qualified h.paused reserves.saved)
      (fun _ h => h) ?_
    rintro _ _ ⟨rfl, rfl⟩
    refine ⟨layout, rfl, ⟨h, reserves, dir, ?_⟩, fun _ _ hu => hu⟩
    by_contra hn
    exact free ⟨layout, reserves.reserved, hn⟩

theorem publish_endures (h : w.Reserved layout stores s)
    (holds : s.Holds (layoutDir w.roots.storage layout) w.bytes) :
    Endures (fsMachine π) w.errand.Paused
      (tried
        (stores.storage.commitRecall w.ctx (w.target layout) ⟨w.bytes.length, digestOf w.bytes⟩)) s
      fun x s' => w.Over stores x.1 { stores with storage := x.2 } s' := by
  have ha := archive_eq h.running
  have hroot : stores.storage.root = w.roots.storage := h.running.root
  have archived := h.running.stage.1
  obtain ⟨length, digest⟩ := measured archived
  have distinct : w.payload ≠ layoutDir w.roots.storage layout := payload_ne archived
  have spared : ∀ {s'}, Frame (NamedBut (layoutDir w.roots.storage layout) .sealed) s s' →
      w.archive.Archived w.anchor w.bytes w.payload s' := fun hf =>
    archived.frame hf ⟨id, by simp [LocalArchive.receiptName]⟩ ⟨id, by simp⟩
  refine (LocalStorage.commitRecall_endures kind.toSmooth (fun _ _ hc hf => hc.frame hf)
    h.running.paused (fun s₁ hp => ?_) (fun s₁ s' hc hm hp => ?_) h.running.storage w.qualified
    h.reserves.new h.reserves.reserved h.reserves.current w.published
    (List.mem_of_find?_eq_some w.selected) ?_ (by rw [hroot]; rfl)
      (hroot ▸ holds) length digest).mono
    (fun _ h => h) ?_
  · rw [hroot] at hp
    refine h.running.left hp.others (fun _ => ⟨id, by simp⟩) (fun _ => ⟨id, by simp⟩)
      ⟨spared hp.others, .inl (.reserved h.reserves ?_)⟩
    exact hp.others.dir _ .data ⟨id, by simp⟩ h.dir
  · rw [hroot] at hm hp
    exact hc.placed hp h.running.schema ⟨spared hm.others, .inr ⟨layout, h.reserves.published
      (holds.frame hm.others ⟨id, by simp⟩)⟩⟩
  · intro old ho
    rw [h.reserves.unfinished] at ho
    cases ho
  rintro ⟨_, storage⟩ s' ⟨rfl, holds', turned⟩
  dsimp only at holds' turned ⊢
  have holds'' : s'.Holds (layoutDir w.roots.storage layout) w.bytes := hroot ▸ holds'
  have finished :
    w.Finished layout (stores.storage.state.publishing w.ctx w.entity (w.target layout)
      ⟨w.bytes.length, digestOf w.bytes⟩) s' := h.reserves.published holds''
  have running := h.running.turned turned rfl ⟨ha ▸ h.running.archived turned (ha ▸ archived),
    .inr ⟨layout, finished⟩⟩
  obtain rfl := turned.handle
  refine ⟨running, rfl, rfl, ⟨layout, finished⟩, fun op hne hu => hu.record inj hne ?_ rfl⟩
  simp only [Table.lookup_insert]
  exact if_neg (Ne.symm hne)

/-- Where no layout is blocked, the layout is reserved, filled and published. -/
theorem recall_endures (h : w.errand.Running stores s) (free : ¬ w.Blocked stores.storage.state s) :
    Endures (fsMachine π) w.errand.Paused
      (tried ((HsmEngine.recall w.ctx w.entity.public w.place).locally stores)) s
      fun x s' => w.Over stores x.1 x.2 s' := by
  have smooth := kind.toSmooth
  have place : w.anchor.key = w.place := w.attests.key_eq
  obtain ⟨⟨⟩, validate, -⟩ := HsmResult.bind_eq_ok.mp w.qualified
  have ha := archive_eq h
  unfold HsmEngine.recall
  refine Workflow.endures_check validate ?_
  rcases h.stage.2 with going | ⟨layout, finished⟩
  case inr =>
    obtain ⟨owns, -, -⟩ := State.entity_eq_ok.mp finished.rest.current
    refine Workflow.endures_bind (Workflow.endures_completed h.paused (LocalStorage.completed_some
      h.storage.healthy w.qualified finished.recorded owns) ?_)
    exact Workflow.endures_pure h.paused ⟨h, rfl, rfl, ⟨layout, finished⟩, fun _ _ hu => hu⟩
  obtain ⟨unfinished, owns⟩ : stores.storage.state.completed.lookup w.ctx.operationId = none ∧
      stores.storage.state.Owns w.data.entity := by
    cases going with
    | fresh rest unused => exact ⟨unused.completed, (State.entity_eq_ok.mp rest.current).1⟩
    | reserved reserves => exact ⟨reserves.unfinished, (State.entity_eq_ok.mp reserves.current).1⟩
  refine Workflow.endures_bind (Workflow.endures_completed h.paused (LocalStorage.completed_none
    h.storage.healthy w.qualified unfinished owns) ?_)
  dsimp only
  refine Workflow.endures_guard (by simp [w.offline]) ?_
  rw [w.selected]
  dsimp only
  refine Workflow.endures_check (HsmEngine.checkReceipt_eq_ok.mpr w.attests) ?_
  rw [← place]
  refine Workflow.endures_bind (Workflow.endures_backend (c := .inspect w.anchor.key) (g := id) ?_)
  refine Endures.mono (LocalArchive.inspect_endures smooth (fun s' hf => (h.quiet hf).1)
    (ha ▸ h.stage.1)) (fun _ h => h) ?_
  rintro _ s₁ ⟨rfl, f₁, k₁⟩
  dsimp only
  refine Workflow.endures_guard (by simp) ?_
  have h₁ := (h.quiet f₁).2 k₁
  have free₁ : ¬ w.Blocked stores.storage.state s₁ := fun hb =>
    free (hb.of_frame f₁ fun _ _ hk => hk.1)
  refine Workflow.endures_bind (Workflow.endures_storage
    (c := .prepareRecall w.ctx w.entity.public w.anchor) (g := id)
    (p := stores.storage.prepareRecall w.ctx w.entity.public w.anchor) (Prog.bind_ret _)
    ((reserve_endures inj kind h₁ (going.still f₁ fun _ _ hk => hk.1) free₁).mono
      (fun _ h => h) ?_))
  rintro ⟨_, storage⟩ s₂ ⟨layout, rfl, reserved, unused⟩
  dsimp only at reserved unused ⊢
  refine Workflow.endures_bind (Workflow.endures_backend (c := .open w.anchor) (g := id) ?_)
  refine Endures.mono (LocalArchive.openReceipt_endures smooth
    (fun s' hf => (reserved.running.quiet hf).1) (ha ▸ reserved.running.stage.1)) (fun _ h => h) ?_
  rintro _ s₃ ⟨rfl, f₃, k₃⟩
  dsimp only
  have reserved₃ : w.Reserved layout { stores with storage } s₃ :=
    ⟨(reserved.running.quiet f₃).2 k₃, reserved.reserves, f₃.dirs reserved.dir,
      f₃.absent id reserved.unsealed⟩
  have archived₃ := reserved₃.running.stage.1
  have distinct : w.payload ≠ layoutDir w.roots.storage layout := payload_ne archived₃
  have writes : ∀ {s'}, Frame (NamedBut (layoutDir w.roots.storage layout) .data) s₃ s' →
      w.errand.Paused s' ∧
        (s'.locked = s₃.locked → w.Reserved layout { stores with storage } s') := by
    intro s' hf
    have archived := archived₃.frame hf ⟨id, by simp [LocalArchive.receiptName]⟩
      ⟨id, fun he => distinct he.1⟩
    have dir := hf.dir _ .sealed ⟨id, by simp⟩ reserved₃.dir
    have stage : w.errand.stage storage.state s' :=
      ⟨archived, .inl (.reserved reserved₃.reserves dir)⟩
    exact ⟨reserved₃.running.left hf (fun _ => ⟨id, by simp⟩) (fun _ => ⟨id, by simp⟩) stage,
      fun hk =>
        ⟨reserved₃.running.frame hf (fun _ => ⟨id, by simp⟩) (fun _ => ⟨id, by simp⟩) hk stage,
        reserved₃.reserves, dir, hf.absent ⟨id, by simp⟩ reserved₃.unsealed⟩⟩
  have copies := copy_endures (C := w.errand.Paused) smooth kind.copies (fun s' hf => (writes hf).1)
    validate distinct archived₃.holds reserved₃.dir reserved₃.unsealed
      reserved₃.running.storage.idle
  refine Workflow.endures_bind (Workflow.endures_copy (copies.mono (fun _ h => h) ?_))
  rintro _ s₄ ⟨rfl, holds₄, f₄, k₄⟩
  dsimp only
  obtain ⟨length, digest⟩ := measured archived₃
  refine Workflow.endures_guard (by simp [length, digest]) ?_
  refine Workflow.endures_storage (c := .commitRecall w.ctx (w.target layout) _) (g := id)
    (p := LocalStorage.commitRecall _ w.ctx (w.target layout) _) (Prog.bind_ret _) ?_
  refine (publish_endures inj kind ((writes f₄).2 k₄) holds₄).mono (fun _ h => h) ?_
  intro x s' after
  exact ⟨after.running, after.archive, after.result, after.finished,
    fun op hne hu => after.unused op hne (unused op hne hu)⟩

omit inj in
/-- Where the layout is blocked, the mover refuses it, and nothing is written. -/
theorem recall_fenced (h : w.errand.Running stores s) (blocked : w.Blocked stores.storage.state s) :
    (tried ((HsmEngine.recall w.ctx w.entity.public w.place).locally stores)).run.wp (fsMachine π)
      w.errand.Paused (fun r _ => r = .error .fenced) s := by
  have smooth := kind.toSmooth
  have place : w.anchor.key = w.place := w.attests.key_eq
  obtain ⟨⟨⟩, validate, -⟩ := HsmResult.bind_eq_ok.mp w.qualified
  have ha := archive_eq h
  have archived := h.stage.1
  obtain ⟨layout, reserves, dir, mark⟩ := h.stage.2.blocked blocked
  have cut : ∀ s', Frame Named s s' → w.errand.Paused s' := fun _ hf => (h.quiet hf).1
  have distinct : w.payload ≠ layoutDir w.roots.storage layout := payload_ne archived
  unfold HsmEngine.recall
  refine Workflow.wp_check validate (Workflow.wp_bind (Workflow.endures_completed h.paused
    (LocalStorage.completed_none h.storage.healthy w.qualified reserves.unfinished
      (State.entity_eq_ok.mp reserves.current).1) ?_))
  dsimp only
  refine Workflow.wp_guard (by simp [w.offline]) ?_
  rw [w.selected]
  dsimp only
  refine Workflow.wp_check (HsmEngine.checkReceipt_eq_ok.mpr w.attests) ?_
  rw [← place]
  refine Workflow.wp_bind (Workflow.endures_backend (c := .inspect w.anchor.key) (g := id) ?_)
  refine Endures.mono (LocalArchive.inspect_endures smooth cut (ha ▸ archived)) (fun _ h => h) ?_
  rintro _ s₁ ⟨rfl, f₁, k₁⟩
  dsimp only
  refine Workflow.wp_guard (by simp) ?_
  have serving₁ := h.toServing.frame f₁ (fun _ => id) (fun _ => id) k₁
  refine Workflow.wp_bind (Workflow.endures_storage
    (c := .prepareRecall w.ctx w.entity.public w.anchor) (g := id)
    (p := stores.storage.prepareRecall w.ctx w.entity.public w.anchor) (Prog.bind_ret _)
    (Endures.mono
      (LocalStorage.step_replays serving₁.storage w.qualified (cut s₁ f₁) reserves.saved)
      (fun _ h => h) ?_))
  rintro _ _ ⟨rfl, rfl⟩
  dsimp only
  have archived₁ := archived.frame f₁ (fun h => h) fun h => h
  refine Workflow.wp_bind (Workflow.endures_backend (c := .open w.anchor) (g := id) ?_)
  refine Endures.mono (LocalArchive.openReceipt_endures smooth (fun s' hf => cut s' (f₁.trans hf))
    (ha ▸ archived₁)) (fun _ h => h) ?_
  rintro _ s₂ ⟨rfl, f₂, k₂⟩
  dsimp only
  have f := f₁.trans f₂
  refine Workflow.wp_error (Prog.wp_mono (Workflow.wp_copy (Prog.wp_mono (copy_fenced smooth
    (fun s' hf => cut s' (f.trans hf)) validate distinct
      (f₂.dirs archived₁.holds.dir) (f.dirs dir) ?_
    fun d => by rw [k₂, k₁]; exact h.storage.idle d) (fun _ h => h) fun _ _ _ hr => hr.1))
    (fun _ h => h) ?_)
  · obtain ⟨⟨c, x⟩, hm⟩ := Option.ne_none_iff_exists'.mp mark
    obtain ⟨y, hy⟩ := f.still (n := .sealed) id ⟨x, hm⟩
    simp [hy]
  · rintro r s' - rfl
    exact ⟨.fenced, rfl, rfl⟩

/-! ## Any number of processes -/

/-- However many processes have been killed in a recall, the one that is not ends: with the layout
published, which has the bytes of the object, or, exactly where the disk it starts from has the
reserved layout sealed, with the mover's refusal. -/
theorem recall_converges (start : w.errand.Paused s) (tree : s.Tree)
    (unlocked : ∀ d n, s.locked d n = false) {r : HsmResult EntityState}
    {s'' : Disk (FileName κ) (Content κ)}
    (restarted : Restarted (fsMachine π) Disk.reboot (HsmEngine.process w.roots w.backend
      (HsmEngine.recall w.ctx w.entity.public w.place) : Io κ EntityState).run s s')
    (runs : Runs (fsMachine π) (HsmEngine.process w.roots w.backend
      (HsmEngine.recall w.ctx w.entity.public w.place) : Io κ EntityState).run s' r s'') :
    (w.Stranded s' → r = .error .fenced) ∧
    (¬ w.Stranded s' → ∃ layout st, r = .ok w.entity.public.recalled ∧
      s''.Safe w.roots.storage .state (.state st) ∧
      st.Resting w.data ⟨w.entity.public.recalled, some layout⟩ ∧
      s''.Holds (layoutDir w.roots.storage layout) w.bytes) := by
  have lasts : ∀ stores s, w.errand.Running stores s →
      ((HsmEngine.recall w.ctx w.entity.public w.place).locally stores).wp (fsMachine π)
        w.errand.Paused (fun _ _ => True) s := fun stores s h => by
    by_cases hb : w.Blocked stores.storage.state s
    · exact Prog.wp_mono (wp_tried.mp (recall_fenced kind h hb)) (fun _ h => h)
        fun _ _ _ _ => trivial
    · exact Prog.wp_mono (endures_tried.mp (recall_endures inj kind h hb)) (fun _ h => h)
        fun _ _ _ _ => trivial
  obtain ⟨paused, tree', unlocked'⟩ :=
    Errand.restarted (t := w.errand) kind.toSmooth lasts start tree unlocked restarted
  obtain ⟨stores, s₁, stores', running, hl, hf, hr⟩ :=
    Errand.process_runs (t := w.errand) kind.toSmooth paused tree' unlocked' runs
  have stranded : w.Stranded s' ↔ w.Blocked stores.storage.state s₁ := by
    constructor
    · rintro ⟨st, hst, hb⟩
      cases hst.symm.trans hl
      exact hb.frame hf fun _ _ hk => hk
    · exact fun hb => ⟨_, hl, hb.of_frame hf fun _ _ hk => hk⟩
  rw [stranded]
  refine ⟨fun hb => ?_, fun hb => ?_⟩
  · have ends := Prog.wp_sound_runs (wp_tried.mp (recall_fenced kind running hb)) hr
    cases r with
    | error e =>
      cases ends
      rfl
    | ok a => cases ends
  · obtain ⟨a, rfl, after⟩ :=
      Prog.wp_sound_runs (endures_tried.mp (recall_endures inj kind running hb)) hr
    obtain ⟨layout, finished⟩ := after.finished
    have hroot : stores'.storage.root = w.roots.storage := after.running.root
    exact ⟨layout, _, congrArg _ after.result, hroot ▸ after.running.storage.safe, finished.rest,
      finished.holds⟩

end

end Retrieval

end

namespace Reference

def releasedState : State Keyed :=
  { State.new "store" "ns" with
    entities := Finmap.insert "e" ⟨offline, none⟩ ∅ }

def archivedDir (d : Dir) : Bool :=
  [[], ["s"], ["layouts", "s"], ["a"], ["objects", "a"], ["attempts", "a"],
    ["u0", "attempts", "a"]].contains d

def archivedFile (d : Dir) : FileName Keyed → Option (File (Content Keyed))
  | .state => if d == ["s"] then some ⟨.state releasedState, true⟩ else none
  | .backendId => if d == ["a"] then some ⟨.text "b", true⟩ else none
  | .hashed h =>
    if d == ["objects", "a"] && h == .archive ⟨"b", "o"⟩ then
      some ⟨.committed ⟨receipt, endpoint ["u0", "attempts", "a"]⟩, true⟩
    else
      none
  | .data => if d == ["u0", "attempts", "a"] then some ⟨.bytes [0], true⟩ else none
  | _ => none

def archivedDisk : Disk (FileName Keyed) (Content Keyed) where
  dir := archivedDir
  file := archivedFile
  safeDir := archivedDir
  safeFile := archivedFile
  locked _ _ := false
  issued _ := false

theorem receipt_attests : receipt.Attests content ⟨"b", "o"⟩ 1 (digestOf [0]) :=
  ⟨rfl, rfl, rfl, rfl, by decide, by decide⟩

theorem receipt_selected :
    offline.anchors.find? (fun a => a.key = ⟨"b", "o"⟩) = some receipt := rfl

def retrieval : Retrieval where
  roots := both
  backend := "b"
  ctx := ⟨"recall", 1, 1⟩
  place := ⟨"b", "o"⟩
  entity := ⟨offline, none⟩
  anchor := receipt
  payload := ["u0", "attempts", "a"]
  bytes := [0]
  named := named_backend
  qualified := rfl
  offline := rfl
  published := rfl
  selected := receipt_selected
  attests := receipt_attests

theorem archivedDisk_paused : retrieval.errand.Paused archivedDisk where
  top := rfl
  identifies := by
    refine ⟨named_backend, fun f hf => ?_⟩
    obtain rfl := Option.some.inj hf
    rfl
  born := ⟨by decide, by decide⟩
  cells := by
    have archived : retrieval.archive.Archived receipt [0] ["u0", "attempts", "a"] archivedDisk :=
      ⟨⟨rfl, by decide⟩, ⟨true, rfl⟩, by decide, ⟨true, rfl⟩, rfl, rfl⟩
    have rest : releasedState.Resting content ⟨offline, none⟩ := by
      refine ⟨rfl, ?_, ?_⟩
      · exact Table.not_any_iff.mpr fun v o ho => by cases ho
      · exact Table.not_any_iff.mpr fun l o ho => by cases ho
    have stage : releasedState.schema = 1 ∧ retrieval.errand.stage releasedState archivedDisk :=
      ⟨rfl, archived, .inl (.fresh rest ⟨rfl, fun _ _ _ => rfl⟩)⟩
    refine ⟨fun f hf => ⟨_, ?_, stage⟩, fun f hf => ⟨_, ?_, stage⟩⟩
    · exact (Option.some.inj hf).symm
    · exact (Option.some.inj hf).symm

theorem archivedDisk_tree : archivedDisk.Tree := by
  intro x p h
  simp only [archivedDisk, archivedDir, List.contains_eq_mem, List.mem_cons, List.cons.injEq,
    List.not_mem_nil, or_false, decide_eq_true_eq, reduceCtorEq, false_or] at h
  rcases h with ⟨-, rfl⟩ | ⟨-, rfl⟩ | ⟨-, rfl⟩ | ⟨-, rfl⟩ | ⟨-, rfl⟩ | ⟨-, rfl⟩ <;> rfl

def fencedOwner (s : Disk (FileName Keyed) (Content Keyed)) : Option RecallOwner :=
  match s.lookup ["s"] .state, s.lookup ["h0", "layouts", "s"] .sealed with
  | some ⟨.state st, true⟩, some _ => st.recalls.lookup "h0"
  | _, _ => none

theorem stranded_of_fencedOwner {s : Disk (FileName Keyed) (Content Keyed)}
    (h : fencedOwner s = some ⟨retrieval.ctx, retrieval.target "h0", receipt⟩) :
    retrieval.Stranded s := by
  unfold fencedOwner at h
  split at h
  · rename_i st f hst mark
    exact ⟨st, hst, "h0", h, fun hn => nomatch mark.symm.trans hn⟩
  · cases h

/-- The byte is recalled. A recall that is killed between the seal and the new metadata leaves the
disk stranded; where one has been killed any number of times, the byte is recalled or the mover
refuses. -/
theorem recall_converges_archivedDisk :
    (∃ r s', Runs (fsMachine (drawing handed)) (HsmEngine.process retrieval.roots "b"
      (HsmEngine.recall retrieval.ctx offline ⟨"b", "o"⟩) : Io Keyed EntityState).run
        archivedDisk r s') ∧
    ¬ retrieval.Stranded archivedDisk ∧
    (∃ s', Restarted (fsMachine (drawing handed)) Disk.reboot
        (HsmEngine.process retrieval.roots "b"
          (HsmEngine.recall retrieval.ctx offline ⟨"b", "o"⟩) : Io Keyed EntityState).run
            archivedDisk s' ∧
      retrieval.Stranded s') ∧
    ∀ s' r s'', Restarted (fsMachine (drawing handed)) Disk.reboot
        (HsmEngine.process retrieval.roots "b"
          (HsmEngine.recall retrieval.ctx offline ⟨"b", "o"⟩) : Io Keyed EntityState).run
            archivedDisk s' →
      Runs (fsMachine (drawing handed)) (HsmEngine.process retrieval.roots "b"
        (HsmEngine.recall retrieval.ctx offline ⟨"b", "o"⟩) : Io Keyed EntityState).run s' r s'' →
      (retrieval.Stranded s' → r = .error .fenced) ∧
      (¬ retrieval.Stranded s' → r = .ok offline.recalled ∧
        ∃ layout, s''.Holds (layoutDir ["s"] layout) [0]) := by
  have named : ∀ u ∈ handed, u ≠ "" ∧ u ≠ "s" ∧ u ≠ "layouts" ∧ u ≠ "a" ∧ u ≠ "objects" ∧
    u ≠ "attempts" ∧ u ≠ "u0" := by decide
  have unused : ∀ u ∈ handed ++ [], archivedDisk.Unused u := by
    intro u hu
    obtain ⟨-, hs, hl, ha, ho, ht, hu⟩ := named u (by simpa using hu)
    refine ⟨rfl, fun d => ?_, fun d n hn => ?_⟩
    · simp [archivedDisk, archivedDir, hs, hl, ha, ho, ht, hu]
    · have absent : archivedFile d n = none := by
        cases n <;> simp [FileName.bears] at hn <;> rfl
      simp [archivedDisk, Disk.lookup, absent]
  have kind : (drawing handed : Policy (FileName Keyed) (Content Keyed)).Kind :=
    drawing_kind fun u hu => (named u hu).1
  refine ⟨?_, ?_, ?_, fun s' r s'' restarted runs => ?_⟩
  · have goes : ((HsmEngine.process retrieval.roots "b" (HsmEngine.recall retrieval.ctx offline
        ⟨"b", "o"⟩) : Io Keyed EntityState).run.trial [] handed archivedDisk).isSome := by
      decide +kernel
    obtain ⟨⟨r, s'⟩, hr⟩ := Option.isSome_iff_exists.mp goes
    exact ⟨r, s', (Prog.trial_runs (by decide) unused hr).1⟩
  · rintro ⟨st, hst, layout, -, mark⟩
    have absent : ∀ d, archivedFile d .sealed = none := fun _ => rfl
    exact mark (by simp [archivedDisk, Disk.lookup, absent])
  · have goes : ((((HsmEngine.process retrieval.roots "b" (HsmEngine.recall retrieval.ctx offline
        ⟨"b", "o"⟩) : Io Keyed EntityState).run.upTo 56).trial [] handed archivedDisk).bind fun r =>
          fencedOwner r.2) = some ⟨retrieval.ctx, retrieval.target "h0", receipt⟩ := by
      decide +kernel
    obtain ⟨⟨r, s'⟩, hr, owner⟩ := Option.bind_eq_some_iff.mp goes
    have cut := Cuts.of_upTo (Prog.trial_runs (by decide) unused hr).1
    exact ⟨s'.reboot, .single ⟨s', cut, rfl⟩, stranded_of_fencedOwner owner⟩
  · obtain ⟨fenced, ends⟩ := Retrieval.recall_converges key_injective kind archivedDisk_paused
      archivedDisk_tree (fun _ _ => rfl) restarted runs
    refine ⟨fenced, fun free => ?_⟩
    obtain ⟨layout, st, hr, -, -, holds⟩ := ends free
    exact ⟨hr, layout, holds⟩

end Reference

end HsmRs
