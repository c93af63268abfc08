import HsmRs.System.Errand
import HsmRs.System.Play

/-! # An archive that is started again

The stages of `archive`: nothing has been done, the entity has been pinned and its payload
is on the way to the archive, or the receipt has been attached. Wherever the process is
killed the next one goes on from the stage it finds, and the one that is not killed ends
with the receipt attached.
-/

namespace HsmRs

section

variable {κ : Type} {s s' : Disk (FileName κ) (Content κ)} {ctx : OperationContext}
  {place : ArchiveKey} {view : DataView} {b : Bytes} {u : String}

/-! ## The way to the archive -/

def Outlying (root d : Dir) (n : FileName κ) : Prop :=
  ¬ n.IsTemp ∧ (n = .state ∨ n = .backendId ∨ ¬ root <:+ d)

theorem Outlying.but {root d d' : Dir} {n n' : FileName κ} (h : Outlying root d n)
    (below : root <:+ d')
    (state : n' ≠ .state) (identity : n' ≠ .backendId) : NamedBut d' n' d n := by
  refine ⟨h.1, ?_⟩
  rintro ⟨rfl, rfl⟩
  rcases h.2 with hn | hn | hn
  · exact state hn
  · exact identity hn
  · exact hn below

/-- The files that the stages are about are none that opening the stores writes. -/
def Steadfast (_ : Dir) (n : FileName κ) : Prop := ¬ n.IsTemp ∧ n ≠ .state ∧ n ≠ .backendId

variable [KeyHash κ] [Crates]

namespace LocalArchive

/-- Nothing is stored or attempted under the key. -/
structure Vacant (store : LocalArchive) (ctx : OperationContext) (place : ArchiveKey)
    (s : Disk (FileName κ) (Content κ)) : Prop where
  accepts : store.Accepts place
  absent : s.lookup (objectsDir store.root) (receiptName place) = none
  new : s.lookup (attemptsDir store.root) (preparedPath ctx place) = none

structure Begun (store : LocalArchive) (ctx : OperationContext)
    (place : ArchiveKey) (view : DataView)
    (b : Bytes) (u : String) (s : Disk (FileName κ) (Content κ)) : Prop where
  accepts : store.Accepts place
  absent : s.lookup (objectsDir store.root) (receiptName place) = none
  record : ∃ p x, s.lookup (attemptsDir store.root) (preparedPath ctx place) =
    some ⟨.prepared p, x⟩ ∧
    sameAttempt p.context ctx ∧ p.key = place ∧ p.view = view ∧
    p.target = ⟨place, endpoint (u :: attemptsDir store.root)⟩
  dir : s.dir (u :: attemptsDir store.root) = true
  payload : s.lookup (u :: attemptsDir store.root) .sealed ≠ none →
    s.Holds (u :: attemptsDir store.root) b

variable {self : LocalArchive}

omit [Crates] in
theorem Vacant.frame {K : Dir → FileName κ → Prop} (h : self.Vacant ctx place s) (hf : Frame K s s')
    (object : K (objectsDir self.root) (receiptName place))
    (attempt : K (attemptsDir self.root) (preparedPath ctx place)) : self.Vacant ctx place s' :=
  ⟨h.accepts, hf.absent object h.absent, hf.absent attempt h.new⟩

namespace Begun

omit [KeyHash κ] [Crates] in
theorem below : self.root <:+ u :: attemptsDir self.root :=
  (List.suffix_cons _ _).trans (List.suffix_cons _ _)

variable (h : self.Begun ctx place view b u s)
include h

theorem owned : self.Owned ctx ⟨place, endpoint (u :: attemptsDir self.root)⟩ view s := by
  obtain ⟨p, x, hl, owner, -, views, ht⟩ := h.record
  exact ⟨p, x, hl, owner, ht, views⟩

theorem frame {K : Dir → FileName κ → Prop} (hf : Frame K s s')
    (object : K (objectsDir self.root) (receiptName place))
    (attempt : K (attemptsDir self.root) (preparedPath ctx place))
    (dirs : ∃ n, K (u :: attemptsDir self.root) n)
    (payload : s'.lookup (u :: attemptsDir self.root) .sealed ≠ none →
      s'.Holds (u :: attemptsDir self.root) b) : self.Begun ctx place view b u s' where
  accepts := h.accepts
  absent := hf.absent object h.absent
  record := by
    obtain ⟨p, x, hl, hr⟩ := h.record
    obtain ⟨y, hy⟩ := hf.still attempt ⟨x, hl⟩
    exact ⟨p, y, hy, hr⟩
  dir := by
    obtain ⟨n, hn⟩ := dirs
    exact hf.dir _ n hn h.dir
  payload := payload

theorem still {K : Dir → FileName κ → Prop} (hf : Frame K s s')
    (hk : ∀ d n, Steadfast d n → K d n) : self.Begun ctx place view b u s' := by
  have sealed : K (u :: attemptsDir self.root) .sealed := hk _ _ ⟨fun h => h, by simp, by simp⟩
  refine h.frame hf (hk _ _ ⟨fun h => h, by simp [receiptName], by simp [receiptName]⟩)
    (hk _ _ ⟨fun h => h, by simp [preparedPath], by simp [preparedPath]⟩) ⟨_, sealed⟩ fun hn => ?_
  refine (h.payload fun ha => hn (hf.absent sealed ha)).frame hf
    (hk _ _ ⟨fun h => h, by simp, by simp⟩)

end Begun

theorem Attempted.begun (h : self.Attempted ctx place view u s s') (accepts : self.Accepts place)
    (absent : s.lookup (objectsDir self.root) (receiptName place) = none) :
    self.Begun ctx place view b u s' where
  accepts := accepts
  absent := by
    refine h.placed.others.absent ⟨fun h => h, fun he => ?_⟩ absent
    simp [objectsDir, attemptsDir] at he
  record := ⟨_, true, h.placed.now, ⟨rfl, rfl⟩, rfl, rfl, rfl⟩
  dir := h.dir
  payload hn := (hn (h.empty _ fun h => h)).elim

inductive Carried (store : LocalArchive) (ctx : OperationContext) (place : ArchiveKey)
    (view : DataView) (b : Bytes) (s : Disk (FileName κ) (Content κ)) : Prop
  | vacant : store.Vacant ctx place s → Carried store ctx place view b s
  | begun {u : String} : store.Begun ctx place view b u s → Carried store ctx place view b s
  | stored {receipt : ArchiveReceipt} {payload : Dir} : store.Archived receipt b payload s →
      receipt.key = place → receipt.Binds view → Carried store ctx place view b s

theorem Carried.still {K : Dir → FileName κ → Prop} (h : self.Carried ctx place view b s)
    (hf : Frame K s s') (hk : ∀ d n, Steadfast d n → K d n) : self.Carried ctx place view b s' := by
  have object : ∀ place, K (objectsDir self.root) (receiptName place) :=
    fun _ => hk _ _ ⟨fun h => h, by simp [receiptName], by simp [receiptName]⟩
  cases h with
  | vacant h =>
    exact .vacant
      (h.frame hf (object _) (hk _ _ ⟨fun h => h, by simp [preparedPath], by simp [preparedPath]⟩))
  | begun h => exact .begun (h.still hf hk)
  | stored h key binds =>
    exact .stored (h.frame hf (object _) (hk _ _ ⟨fun h => h, by simp, by simp⟩)) key binds

/-- The receipt of the payload has been given out, and other roots are as they were. -/
structure Delivered (store : LocalArchive) (place : ArchiveKey) (view : DataView) (b : Bytes)
    (s : Disk (FileName κ) (Content κ)) (receipt : ArchiveReceipt)
    (s' : Disk (FileName κ) (Content κ)) :
    Prop where
  key : receipt.key = place
  binds : receipt.Binds view
  archived : ∃ payload, store.Archived receipt b payload s'
  outlying : Frame (Outlying store.root) s s'
  locked : s'.locked = s.locked

variable [DecidableEq κ] {π : Policy (FileName κ) (Content κ)}
  {C : Disk (FileName κ) (Content κ) → Prop}

omit [DecidableEq κ] in
theorem Begun.commits (h : self.Begun ctx place view b u s)
    (holds : s.Holds (u :: attemptsDir self.root) b)
    (hc : self.Commits ctx ⟨place, endpoint (u :: attemptsDir self.root)⟩ view s s')
    (signed : self.Signed place s') :
    Frame (Outlying self.root) s s' ∧ self.Carried ctx place view b s' := by
  have quiet : Frame Named s s' → Frame (Outlying self.root) s s' ∧
      self.Carried ctx place view b s' := fun hf =>
    ⟨hf.mono fun _ _ hk => hk.1, .begun (h.still hf fun _ _ hk => hk.1)⟩
  rcases hc with hf | ⟨-, -, payload, ⟨e, he, rfl⟩, hf | hs | hp⟩
  · exact quiet hf
  · exact quiet hf
  all_goals
    rw [decodeEndpoint_endpoint] at he
    cases he
  · obtain rfl := holds.unique hs.holds
    refine ⟨hs.others.mono fun _ _ hk => hk.but Begun.below (by simp) (by simp),
      .begun (h.frame hs.others
      ⟨fun h => h, by simp [receiptName]⟩ ⟨fun h => h, by simp [preparedPath]⟩
      ⟨.data, fun h => h, by simp⟩ fun _ => ⟨true, hs.data.1⟩)⟩
  · obtain rfl := holds.unique hp.holds
    refine ⟨hp.others.mono fun _ _ hk => ⟨hk.but Begun.below (by simp) (by simp),
      hk.but (List.suffix_cons _ _) (by simp [receiptName]) (by simp [receiptName])⟩, ?_⟩
    exact .stored ⟨h.accepts, ⟨true, hp.object⟩, Begun.below, ⟨true, hp.data.1⟩, hp.bytes.length,
      hp.bytes.digest⟩ rfl ⟨rfl, rfl, rfl, signed _ _ hp.object, rfl⟩

variable (kind : π.Kind)
include kind

theorem prepare_begins (left : ∀ s', Frame (Outlying self.root) s s' →
    self.Carried ctx place view b s' →
      C s') (h : self.Serving s) (validate : ctx.validate = .ok ())
    (open' : self.Vacant ctx place s ∨ ∃ u, self.Begun ctx place view b u s) :
    Endures (fsMachine π) C (self.prepare ctx place view) s fun r s' => ∃ u,
      r = ⟨place, endpoint (u :: attemptsDir self.root)⟩ ∧ self.Begun ctx place view b u s' ∧
      Frame (Outlying self.root) s s' ∧ s'.locked = s.locked := by
  have smooth := kind.toSmooth
  rcases open' with hv | ⟨u, hb⟩
  · have outlying : ∀ {u s'}, self.Attempted ctx place view u s s' →
      Frame (Outlying self.root) s s' :=
      fun ha => ha.placed.others.mono fun _ _ hk =>
        hk.but (List.suffix_cons _ _) (by simp [preparedPath]) (by simp [preparedPath])
    refine (prepare_endures smooth ?_ h validate hv.accepts hv.absent hv.new).mono (fun _ h => h) ?_
    · rintro s' (hf | ⟨u, ha⟩)
      · exact left s' (hf.mono fun _ _ hk => hk.1)
          (.vacant (hv.frame hf (fun h => h) fun h => h))
      · exact left s' (outlying ha) (.begun (ha.begun hv.accepts hv.absent))
    · rintro _ s' ⟨u, rfl, ha, hk⟩
      exact ⟨u, rfl, ha.begun hv.accepts hv.absent, outlying ha, hk⟩
  · obtain ⟨p, x, hl, owner, key, views, target⟩ := hb.record
    refine (prepare_resumes smooth (fun s' hf => left s' (hf.mono fun _ _ hk => hk.1)
      (.begun (hb.still hf fun _ _ hk => hk.1))) h validate hb.accepts hb.absent ⟨x, hl⟩ owner key
      views).mono (fun _ h => h) ?_
    rintro _ _ ⟨rfl, rfl⟩
    exact ⟨u, target, hb, .refl _, rfl⟩

theorem commit_delivers (left : ∀ s', Frame (Outlying self.root) s s' →
      self.Carried ctx place view b s' → C s') (h : self.Serving s)
        (validate : ctx.validate = .ok ())
    (begun : self.Begun ctx place view b u s) (holds : s.Holds (u :: attemptsDir self.root) b)
    (bytes : Matches view b) :
    Endures (fsMachine π) C (self.commit ctx ⟨place, endpoint (u :: attemptsDir self.root)⟩ view
      ⟨view.length, view.digest⟩) s (self.Delivered place view b s) := by
  refine (commit_endures kind.toSmooth kind.named (fun s' hc hs => ?_) h validate begun.accepts
    begun.absent begun.owned rfl Begun.below holds bytes).mono (fun _ h => h) ?_
  · obtain ⟨hf, carried⟩ := begun.commits holds hc hs
    exact left s' hf carried
  · rintro _ s' ⟨t, v, hv, rfl, archived, hf, hk⟩
    refine ⟨rfl, ⟨rfl, rfl, rfl, kind.named t v hv, rfl⟩, ⟨_, archived⟩, hf.mono fun _ _ hk =>
      ⟨hk.but Begun.below (by simp) (by simp), hk.but (List.suffix_cons _ _) ?_ ?_⟩, hk⟩
    · simp [receiptName]
    · simp [receiptName]

/-- A sealed attempt is committed again, and one that is not sealed is left to be copied. -/
theorem resumeCommit_delivers (left : ∀ s', Frame (Outlying self.root) s s' →
      self.Carried ctx place view b s' → C s') (h : self.Serving s)
        (validate : ctx.validate = .ok ())
    (begun : self.Begun ctx place view b u s) (bytes : Matches view b) :
    Endures (fsMachine π) C
      (self.resumeCommit ctx ⟨place, endpoint (u :: attemptsDir self.root)⟩ view) s
      fun r s' => r = none ∧ s.lookup (u :: attemptsDir self.root) .sealed = none ∧ s' = s ∨
        ∃ receipt, r = some receipt ∧ self.Delivered place view b s receipt s' := by
  have now : C s := left s (.refl s) (.begun begun)
  have decodes : decodeEndpoint (endpoint (u :: attemptsDir self.root)) = .ok
      ⟨true, u :: attemptsDir self.root, "data"⟩ := decodeEndpoint_endpoint _
  refine .check decodes ?_
  apply Prog.wp_run_bind_of
  refine wp_existsFile now rfl ?_
  cases hs : s.lookup (LocalEndpoint.root ⟨true, u :: attemptsDir self.root, "data"⟩) .sealed with
  | none => exact ⟨now, none, rfl, .inl ⟨rfl, rfl, rfl⟩⟩
  | some f =>
    have holds := begun.payload fun hn => by cases hs.symm.trans hn
    refine Endures.bind ((commit_delivers kind left h validate begun holds bytes).kept.mono
      (fun _ h => h) ?_)
    rintro receipt s' ⟨delivered, now'⟩
    exact .pure now' (.inr ⟨receipt, rfl, delivered⟩)

end LocalArchive

variable [DecidableEq κ] {π : Policy (FileName κ) (Content κ)} {roots : Roots} {stores : Stores κ}
  {layout : String} {C : Disk (FileName κ) (Content κ) → Prop}

/-- From wherever it has come to, the payload of a layout goes to the archive, which then has a
receipt for it. -/
theorem HsmEngine.upload_endures (kind : π.Kind)
    (left : ∀ s', Frame (Outlying stores.archive.root) s s' →
      stores.archive.Carried ctx place view b s' → C s') (h : stores.Serving roots s)
    (validate : ctx.validate = .ok ())
    (open' : stores.archive.Vacant ctx place s ∨ ∃ u, stores.archive.Begun ctx place view b u s)
    (source : view.source = endpoint (layoutDir stores.storage.root layout))
    (holds : s.Holds (layoutDir stores.storage.root layout) b)
    (bytes : LocalArchive.Matches view b) :
    Endures (fsMachine π) C (tried ((upload ctx place view).locally stores)) s fun x s' =>
      x.2 = stores ∧ stores.archive.Delivered place view b s x.1 s' := by
  have serves : ∀ {s'}, Frame (Outlying stores.archive.root) s s' → s'.locked = s.locked →
      stores.Serving roots s' := fun hf hk =>
    h.frame hf (fun _ => ⟨id, .inl rfl⟩) (fun _ => ⟨id, .inr (.inl rfl)⟩) hk
  have outside : ¬ stores.archive.root <:+ layoutDir stores.storage.root layout := by
    rw [h.root, h.root']
    exact fun below => Roots.off below suffix_layoutDir
  have given : ∀ {s₁ receipt s'}, Frame (Outlying stores.archive.root) s s₁ → s₁.locked = s.locked →
      stores.archive.Delivered place view b s₁ receipt s' →
      stores.archive.Delivered place view b s receipt s' :=
    fun hf hk hd => ⟨hd.key, hd.binds, hd.archived, hf.trans hd.outlying, hd.locked.trans hk⟩
  unfold upload
  refine Workflow.endures_bind
    (Workflow.endures_backend (c := .prepare ctx place view) (g := id) ?_)
  refine Endures.mono (LocalArchive.prepare_begins kind left h.archive validate open')
    (fun _ h => h) ?_
  rintro _ s₁ ⟨u, rfl, begun, f₁, k₁⟩
  dsimp only
  have hs₁ := serves f₁ k₁
  have left₁ : ∀ s', Frame (Outlying stores.archive.root) s₁ s' →
      stores.archive.Carried ctx place view b s' → C s' := fun s' hf => left s' (f₁.trans hf)
  refine Workflow.endures_bind
    (Workflow.endures_backend (c := .resumeCommit ctx _ view) (g := id) ?_)
  refine Endures.mono (LocalArchive.resumeCommit_delivers kind left₁ hs₁.archive validate begun
    bytes).kept (fun _ h => h) ?_
  rintro _ s₂ ⟨⟨rfl, unsealed, rfl⟩ | ⟨receipt, rfl, delivered⟩, now⟩
  · dsimp only
    have distinct : layoutDir stores.storage.root layout ≠ u :: attemptsDir stores.archive.root :=
      fun he => outside (he ▸ LocalArchive.Begun.below)
    have writes : ∀ {s'}, Frame (NamedBut (u :: attemptsDir stores.archive.root) .data) s₂ s' →
        Frame (Outlying stores.archive.root) s₂ s' ∧
        ((s'.lookup (u :: attemptsDir stores.archive.root) .sealed ≠ none →
          s'.Holds (u :: attemptsDir stores.archive.root) b) →
        stores.archive.Begun ctx place view b u s') := fun hf => by
      refine ⟨hf.mono fun _ _ hk => hk.but LocalArchive.Begun.below (by simp) (by simp), fun hp =>
        begun.frame hf ⟨id, by simp [LocalArchive.receiptName]⟩
          ⟨id, by simp [LocalArchive.preparedPath]⟩ ⟨.sealed, id, by simp⟩ hp⟩
    have copies := copy_endures (C := C) kind.toSmooth kind.copies
      (fun s' hf => ?_) validate distinct
      (holds.frame f₁ ⟨id, .inr (.inr outside)⟩) begun.dir unsealed hs₁.storage.idle
    rotate_left
    · obtain ⟨outlying, again⟩ := writes hf
      refine left₁ s' outlying (.begun (again fun hn => (hn ?_).elim))
      exact hf.absent ⟨id, by simp⟩ unsealed
    rw [source]
    refine Workflow.endures_bind (Workflow.endures_copy (copies.mono (fun _ h => h) ?_))
    rintro _ s₃ ⟨rfl, payload, f₃, k₃⟩
    dsimp only
    obtain ⟨outlying, again⟩ := writes f₃
    have f₁₃ := f₁.trans outlying
    refine Workflow.endures_guard (by simp [bytes.length, bytes.digest]) ?_
    refine Workflow.endures_backend (c := .commit ctx _ view _) (g := id) ?_
    rw [← bytes.length, ← bytes.digest]
    refine Endures.mono (LocalArchive.commit_delivers kind (fun s' hf => left s' (f₁₃.trans hf))
      (serves f₁₃ (k₃.trans k₁)).archive validate (again fun _ => payload) payload bytes)
      (fun _ h => h) ?_
    intro receipt s' delivered
    exact ⟨rfl, given f₁₃ (k₃.trans k₁) delivered⟩
  · exact Workflow.endures_pure now ⟨rfl, given f₁ k₁ delivered⟩

/-! ## The stages of an archive -/

/-- An archive of one entity under one key: the operation, the entity as it is before, and the bytes
of its layout. -/
structure Archival where
  roots : Roots
  backend : String
  ctx : OperationContext
  data : DataKey
  place : ArchiveKey
  entity : Entity
  layout : String
  bytes : Bytes
  named : backend ≠ ""
  qualified : LocalStorage.qualify ctx = .ok ()
  published : entity.published = some layout
  length : entity.public.length = bytes.length
  digest : entity.public.digest = digestOf bytes
  free : ∀ a ∈ entity.public.anchors, a.key ≠ place

namespace Archival

variable {w : Archival} {st : State κ}

def archive (w : Archival) : LocalArchive := ⟨w.roots.archive, w.backend⟩

structure Views (w : Archival) (view : DataView) : Prop where
  data : view.data = w.data
  bytes : LocalArchive.Matches view w.bytes
  source : view.source = endpoint (layoutDir w.roots.storage w.layout)

structure Pins (w : Archival) (view : DataView) (st : State κ) : Prop where
  current : st.entity w.data = .ok w.entity
  unrecalled : ¬ st.recalls.Any (fun r => r.target.data = w.data)
  alone : ∀ v o, st.views.lookup v = some o → o.view.data = w.data → v = view.viewId
  pinned : st.views.lookup view.viewId = some ⟨w.ctx, view⟩
  unfinished : st.completed.lookup w.ctx.operationId = none
  saved : st.steps.lookup (key (.step w.ctx .prepareArchive)) =
    some ⟨key (.request w.ctx (.prepareArchive w.data)), .ok (.view view)⟩
  new : st.steps.lookup (key (.step w.ctx .commitArchive)) = none

structure Finished (w : Archival) (receipt : ArchiveReceipt) (st : State κ)
    (s : Disk (FileName κ) (Content κ)) : Prop where
  rest : st.Resting w.data { w.entity with «public» := w.entity.public.attached receipt }
  recorded : st.completed.lookup w.ctx.operationId =
    some ⟨w.ctx, w.data, .archive w.place, w.entity.public.attached receipt⟩
  attests : receipt.Attests w.data w.place w.bytes.length (digestOf w.bytes)
  archived : ∃ payload, w.archive.Archived receipt w.bytes payload s

inductive Going (w : Archival) (st : State κ) (s : Disk (FileName κ) (Content κ)) : Prop
  | fresh : st.Resting w.data w.entity → st.Unused w.ctx.operationId →
      w.archive.Vacant w.ctx w.place s → Going w st s
  | pinned {view : DataView} : w.Views view → w.Pins view st →
      w.archive.Carried w.ctx w.place view w.bytes s → Going w st s

def Stage (w : Archival) (st : State κ) (s : Disk (FileName κ) (Content κ)) : Prop :=
  w.Going st s ∨ ∃ receipt, w.Finished receipt st s

omit [DecidableEq κ] in
theorem Finished.still {receipt : ArchiveReceipt} {K : Dir → FileName κ → Prop}
    (h : w.Finished receipt st s) (hf : Frame K s s') (hk : ∀ d n, Steadfast d n → K d n) :
    w.Finished receipt st s' := by
  obtain ⟨payload, archived⟩ := h.archived
  exact { h with archived := ⟨payload, archived.frame hf
    (hk _ _ ⟨id, by simp [LocalArchive.receiptName], by simp [LocalArchive.receiptName]⟩)
    (hk _ _ ⟨id, by simp, by simp⟩)⟩ }

theorem Stage.still {K : Dir → FileName κ → Prop} (h : w.Stage st s) (hf : Frame K s s')
    (hk : ∀ d n, Steadfast d n → K d n) : w.Stage st s' := by
  have hashed : ∀ (d : Dir) (k : κ), K d (.hashed k) :=
    fun d k => hk _ _ ⟨id, by simp, by simp⟩
  rcases h with h | ⟨receipt, h⟩
  · refine .inl ?_
    cases h with
    | fresh rest unused vacant =>
      exact .fresh rest unused (vacant.frame hf (hashed _ _) (hashed _ _))
    | pinned views pins carried => exact .pinned views pins (carried.still hf hk)
  · exact .inr ⟨receipt, h.still hf hk⟩

def errand (w : Archival) : Errand κ where
  roots := w.roots
  backend := w.backend
  named := w.named
  stage st s := s.Holds (layoutDir w.roots.storage w.layout) w.bytes ∧ w.Stage st s
  steady h hf := ⟨h.1.frame hf ⟨id, by simp, by simp⟩, h.2.still hf fun _ _ hk => hk⟩

theorem archive_eq (h : w.errand.Running stores s) : stores.archive = w.archive := by
  obtain ⟨_, root, id⟩ := stores
  obtain rfl := h.root'
  obtain rfl := h.backend
  rfl

structure Pinned (w : Archival) (view : DataView) (stores : Stores κ)
    (s : Disk (FileName κ) (Content κ)) :
    Prop where
  running : w.errand.Running stores s
  views : w.Views view
  pins : w.Pins view stores.storage.state
  carried : stores.archive.Carried w.ctx w.place view w.bytes s

structure Over (w : Archival) (stores : Stores κ) (result : EntityState) (stores' : Stores κ)
    (s' : Disk (FileName κ) (Content κ)) : Prop where
  running : w.errand.Running stores' s'
  archive : stores'.archive = stores.archive
  finished : ∃ receipt, result = w.entity.public.attached receipt ∧
    w.Finished receipt stores'.storage.state s'
  unused : ∀ op, w.ctx.operationId ≠ op → stores.storage.state.Unused op →
    stores'.storage.state.Unused op

section

variable (inj : Function.Injective (key : Keyed → κ))
include inj

theorem Pins.of_pinning (rest : st.Resting w.data w.entity) (unused : st.Unused w.ctx.operationId)
    (views : w.Views view) : w.Pins view (st.pinning w.ctx view) where
  current := rest.current
  unrecalled := rest.unrecalled
  alone v o ho hd := by
    simp only [State.pinning, State.stepped, State.record, Table.lookup_insert] at ho
    split at ho
    · assumption
    · exact (Table.not_any_iff.mp rest.unviewed v o ho hd).elim
  pinned := by simp [State.pinning, State.stepped, State.record]
  unfinished := unused.completed
  saved := by simp [State.pinning, State.stepped, State.record, StepRequest.name, views.data]
  new := (lookup_record inj fun h => by cases h.2).trans (unused.steps _ _ rfl)

omit inj in
theorem Pins.attached {receipt : ArchiveReceipt} (pins : w.Pins view st) (views : w.Views view)
    (key : receipt.key = w.place) (binds : receipt.Binds view)
    (archived : ∃ payload, w.archive.Archived receipt w.bytes payload s) :
    w.Finished receipt (st.attaching w.ctx view receipt w.entity) s where
  rest :=
    { current := State.entity_insert pins.current (State.entity_eq_ok.mp pins.current).2.2 rfl rfl
        (by simp [State.attaching, State.stepped, State.record, views.data])
      unviewed := by
        rw [Table.not_any_iff]
        intro v o ho hd
        simp only [State.attaching, State.stepped, State.record, Table.lookup_erase] at ho
        split at ho
        · cases ho
        · rename_i hn
          exact hn (pins.alone v o ho hd)
      unrecalled := pins.unrecalled }
  recorded := by simp [State.attaching, State.stepped, State.record, views.data, key]
  attests := by
    obtain ⟨h₁, h₂, h₃, h₄, h₅⟩ := binds
    exact ⟨key, h₁.trans views.data, h₂.trans views.bytes.length, h₃.trans views.bytes.digest, h₄,
      by simp [h₅]⟩
  archived := archived

variable (kind : π.Kind)
include kind

theorem pin_endures (h : w.errand.Running stores s) (going : w.Going stores.storage.state s) :
    Endures (fsMachine π) w.errand.Paused (tried (stores.storage.prepareArchive w.ctx w.data)) s
      fun x s' => w.Pinned x.1 { stores with storage := x.2 } s' ∧
        ∀ op, w.ctx.operationId ≠ op → stores.storage.state.Unused op → x.2.state.Unused op := by
  have ha := archive_eq h
  have holds := h.stage.1
  cases going with
  | fresh rest unused vacant =>
    obtain ⟨-, -, hd⟩ := State.entity_eq_ok.mp rest.current
    have views : ∀ {view}, stores.storage.Shows w.entity w.layout view → w.Views view := fun hv =>
      ⟨hv.data.trans hd, ⟨hv.length.trans w.length, hv.digest.trans w.digest⟩, hv.source.trans (by
        rw [h.root]
        rfl)⟩
    refine (LocalStorage.prepareArchive_endures kind.toSmooth
      (fun _ _ hc hf => hc.frame hf) h.paused
      (fun view s₁ s' hv hc hf hp => ?_) h.storage w.qualified unused rest w.published).mono
      (fun _ h => h) ?_
    · rw [h.root] at hp
      refine hc.placed hp h.schema ⟨holds.frame hf id, .inl ?_⟩
      exact .pinned (views hv) (.of_pinning inj rest unused (views hv))
        (.vacant (vacant.frame hf (fun h => h) fun h => h))
    rintro ⟨view, storage⟩ s' ⟨hv, turned⟩
    dsimp only at hv turned ⊢
    have carried : w.archive.Carried w.ctx w.place view w.bytes s' := by
      rw [← ha] at vacant ⊢
      exact .vacant (vacant.frame turned.spares
        (h.spared (fun h => h) h.archive.objects (List.suffix_cons _ _))
        (h.spared (fun h => h) h.archive.attempts (List.suffix_cons _ _)))
    have pins := Pins.of_pinning inj rest unused (views hv)
    have running := h.turned turned rfl ⟨holds.frame turned.spares ⟨⟨id, holds.dir⟩, .inl rfl⟩,
      .inl (.pinned (views hv) pins carried)⟩
    obtain rfl := turned.handle
    exact ⟨⟨running, views hv, pins, ha ▸ carried⟩, fun op hne hu => hu.record inj hne rfl rfl⟩
  | pinned views pins carried =>
    refine Endures.mono (LocalStorage.step_replays h.storage w.qualified h.paused pins.saved)
      (fun _ h => h) ?_
    rintro _ _ ⟨rfl, rfl⟩
    exact ⟨⟨h, views, pins, ha ▸ carried⟩, fun _ _ hu => hu⟩

theorem attach_endures {receipt : ArchiveReceipt} (h : w.Pinned view stores s)
    (key : receipt.key = w.place) (binds : receipt.Binds view)
    (archived : ∃ payload, stores.archive.Archived receipt w.bytes payload s) :
    Endures (fsMachine π) w.errand.Paused
      (tried ((HsmEngine.attach w.ctx w.data w.place view receipt).locally stores)) s
      fun x s' => w.Over stores x.1 x.2 s' := by
  have ha := archive_eq h.running
  have holds := h.running.stage.1
  have hroot : stores.storage.root = w.roots.storage := h.running.root
  have finished := fun {s'} => Pins.attached (s := s') h.pins h.views key binds
  have attests : receipt.Attests w.data w.place view.length view.digest := by
    obtain ⟨h₁, h₂, h₃, h₄, h₅⟩ := binds
    exact ⟨key, h₁.trans h.views.data, h₂, h₃, h₄, by simp [h₅]⟩
  refine Workflow.endures_check (HsmEngine.checkReceipt_eq_ok.mpr attests) ?_
  refine Workflow.endures_storage (c := .commitArchive w.ctx view receipt) (g := id)
    (p := stores.storage.commitArchive w.ctx view receipt) (Prog.bind_ret _) ?_
  obtain ⟨payload, archived⟩ := archived
  refine (LocalStorage.commitArchive_endures kind.toSmooth (fun _ _ hc hf => hc.frame hf)
    h.running.paused (fun s₁ s' hc hf hp => ?_) h.running.storage w.qualified
      h.pins.new h.pins.pinned
    (h.views.data ▸ h.pins.current) binds (fun a ha hk => (w.free a ha (hk.trans key)).elim) ?_
    (hroot ▸ h.views.source) (hroot ▸ holds.dir)).mono (fun _ h => h) ?_
  · rw [hroot] at hp
    refine hc.placed hp h.running.schema ⟨holds.frame hf id, .inr ⟨receipt, ?_⟩⟩
    exact finished ⟨payload, ha ▸ archived.frame hf (fun h => h) fun h => h⟩
  · intro old ho
    rw [h.pins.unfinished] at ho
    cases ho
  rintro ⟨_, storage⟩ s' ⟨rfl, turned⟩
  dsimp only at turned ⊢
  have after := finished ⟨payload, ha ▸ h.running.archived turned archived⟩
  have running := h.running.turned turned rfl ⟨holds.frame turned.spares ⟨⟨id, hroot ▸ holds.dir⟩,
    .inl rfl⟩, .inr ⟨receipt, after⟩⟩
  obtain rfl := turned.handle
  refine ⟨running, rfl, ⟨receipt, rfl, after⟩, fun op hne hu => hu.record inj hne ?_ rfl⟩
  simp only [Table.lookup_insert]
  exact if_neg (Ne.symm hne)

omit inj kind in
theorem Pinned.frame {K : Dir → FileName κ → Prop} (h : w.Pinned view stores s) (hf : Frame K s s')
    (state : ∀ d, K d .state) (identity : ∀ d, K d .backendId)
    (data : K (layoutDir w.roots.storage w.layout) .data)
    (carried : stores.archive.Carried w.ctx w.place view w.bytes s') :
    w.errand.Paused s' ∧ (s'.locked = s.locked → w.Pinned view stores s') := by
  have ha := archive_eq h.running
  have stage : w.errand.stage stores.storage.state s' :=
    ⟨h.running.stage.1.frame hf data, .inl (.pinned h.views h.pins (ha ▸ carried))⟩
  exact ⟨h.running.left hf state identity stage,
    fun hk => ⟨h.running.frame hf state identity hk stage, h.views, h.pins, carried⟩⟩

/-- From wherever it has come to, the payload arrives and its receipt is attached. -/
theorem archive_endures (h : w.errand.Running stores s) :
    Endures (fsMachine π) w.errand.Paused
      (tried ((HsmEngine.archive w.ctx w.data w.place).locally stores)) s
      fun x s' => w.Over stores x.1 x.2 s' := by
  have smooth := kind.toSmooth
  obtain ⟨⟨⟩, validate, -⟩ := HsmResult.bind_eq_ok.mp w.qualified
  unfold HsmEngine.archive
  refine Workflow.endures_check validate ?_
  rcases h.stage.2 with going | ⟨receipt, finished⟩
  case inr =>
    obtain ⟨owns, -, -⟩ := State.entity_eq_ok.mp finished.rest.current
    refine Workflow.endures_bind (Workflow.endures_completed h.paused (LocalStorage.completed_some
      h.storage.healthy w.qualified finished.recorded owns) ?_)
    exact Workflow.endures_pure h.paused ⟨h, rfl, ⟨receipt, rfl, finished⟩, fun _ _ hu => hu⟩
  obtain ⟨unfinished, owns⟩ : stores.storage.state.completed.lookup w.ctx.operationId = none ∧
      stores.storage.state.Owns w.data.entity := by
    cases going with
    | fresh rest unused => exact ⟨unused.completed, (State.entity_eq_ok.mp rest.current).1⟩
    | pinned _ pins => exact ⟨pins.unfinished, (State.entity_eq_ok.mp pins.current).1⟩
  refine Workflow.endures_bind (Workflow.endures_completed h.paused (LocalStorage.completed_none
    h.storage.healthy w.qualified unfinished owns) ?_)
  dsimp only
  refine Workflow.endures_bind
    (Workflow.endures_storage (c := .prepareArchive w.ctx w.data) (g := id)
    (p := stores.storage.prepareArchive w.ctx w.data) (Prog.bind_ret _)
    ((pin_endures inj kind h going).mono (fun _ h => h) ?_))
  rintro ⟨view, storage⟩ s₁ ⟨pinned, unused⟩
  dsimp only at pinned unused ⊢
  have onward : ∀ {x : EntityState × Stores κ} {s'}, w.Over { stores with storage } x.1 x.2 s' →
      w.Over stores x.1 x.2 s' := fun ho =>
    ⟨ho.running, ho.archive, ho.finished, fun op hne hu => ho.unused op hne (unused op hne hu)⟩
  have quiet : ∀ {s'}, Frame Named s₁ s' → w.errand.Paused s' ∧ (s'.locked = s₁.locked →
      w.Pinned view { stores with storage } s') := fun hf =>
    pinned.frame hf (fun _ => id) (fun _ => id) id (pinned.carried.still hf fun _ _ hk => hk.1)
  have away : ∀ s', Frame (Outlying stores.archive.root) s₁ s' →
      stores.archive.Carried w.ctx w.place view w.bytes s' → w.errand.Paused s' ∧
      (s'.locked = s₁.locked → w.Pinned view { stores with storage } s') := fun s' hf hc =>
    pinned.frame hf (fun _ => ⟨id, .inl rfl⟩) (fun _ => ⟨id, .inr (.inl rfl)⟩)
      ⟨id, .inr (.inr (by rw [h.root']; exact fun below => Roots.off below suffix_layoutDir))⟩ hc
  obtain ⟨receipt, payload, archived, hkey, binds⟩ | ⟨open', accepts, absent⟩ :
      (∃ receipt payload, stores.archive.Archived receipt w.bytes payload s₁ ∧
        receipt.key = w.place ∧
        receipt.Binds view) ∨
      (stores.archive.Vacant w.ctx w.place s₁ ∨
        ∃ u, stores.archive.Begun w.ctx w.place view w.bytes u s₁) ∧
      stores.archive.Accepts w.place ∧
      s₁.lookup (objectsDir stores.archive.root) (LocalArchive.receiptName w.place) = none := by
    cases pinned.carried with
    | vacant h => exact .inr ⟨.inl h, h.accepts, h.absent⟩
    | begun h => exact .inr ⟨.inr ⟨_, h⟩, h.accepts, h.absent⟩
    | stored h hkey binds => exact .inl ⟨_, _, h, hkey, binds⟩
  -- the receipt of an earlier process has only to be attached
  · rw [← hkey]
    refine Workflow.endures_bind (Workflow.endures_backend (c := .inspect receipt.key) (g := id) ?_)
    refine Endures.mono (LocalArchive.inspect_endures smooth (fun s' hf => (quiet hf).1) archived)
      (fun _ h => h) ?_
    rintro _ s₂ ⟨rfl, f₂, k₂⟩
    dsimp only
    rw [hkey]
    exact (attach_endures inj kind ((quiet f₂).2 k₂) hkey binds
      ⟨payload, archived.frame f₂ (fun h => h) fun h => h⟩).mono (fun _ h => h)
        fun _ _ ho => onward ho
  · refine Workflow.endures_bind (Workflow.endures_backend (c := .inspect w.place) (g := id) ?_)
    refine Endures.mono
      (LocalArchive.inspect_absent smooth (fun s' hf => (quiet hf).1) accepts absent)
      (fun _ h => h) ?_
    rintro _ _ ⟨rfl, rfl⟩
    dsimp only
    have hroot : storage.root = w.roots.storage := pinned.running.root
    have source : view.source = endpoint (layoutDir storage.root w.layout) :=
      hroot ▸ pinned.views.source
    have holds : Disk.Holds _ (layoutDir storage.root w.layout) w.bytes :=
      hroot ▸ pinned.running.stage.1
    refine Workflow.endures_bind
      ((HsmEngine.upload_endures kind ?_ pinned.running.toServing validate
      open' source holds pinned.views.bytes).mono (fun _ h => h) ?_)
    · exact fun s' hf hc => (away s' hf hc).1
    rintro ⟨receipt, _⟩ s₂ ⟨rfl, delivered⟩
    dsimp only at delivered ⊢
    obtain ⟨payload, archived⟩ := delivered.archived
    refine (attach_endures inj kind ((away s₂ delivered.outlying (.stored archived delivered.key
      delivered.binds)).2 delivered.locked) delivered.key delivered.binds ⟨payload, archived⟩).mono
      (fun _ h => h) fun _ _ ho => onward ho

/-! ## Any number of processes -/

/-- However many processes have been killed in an archive, the one that is not ends with the receipt
attached: the object has the bytes of the layout, the receipt attests them, and the layout still
has them. -/
theorem archive_converges (start : w.errand.Paused s) (tree : s.Tree)
    (unlocked : ∀ d n, s.locked d n = false) {r : HsmResult EntityState}
    {s'' : Disk (FileName κ) (Content κ)}
    (restarted : Restarted (fsMachine π) Disk.reboot (HsmEngine.process w.roots w.backend
      (HsmEngine.archive w.ctx w.data w.place) : Io κ EntityState).run s s')
    (runs : Runs (fsMachine π) (HsmEngine.process w.roots w.backend
      (HsmEngine.archive w.ctx w.data w.place) : Io κ EntityState).run s' r s'') :
    ∃ receipt payload st, r = .ok (w.entity.public.attached receipt) ∧
      receipt.Attests w.data w.place w.bytes.length (digestOf w.bytes) ∧
      w.archive.Archived receipt w.bytes payload s'' ∧
      s''.Safe w.roots.storage .state (.state st) ∧
      st.Resting w.data { w.entity with «public» := w.entity.public.attached receipt } ∧
      s''.Holds (layoutDir w.roots.storage w.layout) w.bytes := by
  have lasts : ∀ stores s, w.errand.Running stores s →
      ((HsmEngine.archive w.ctx w.data w.place).locally stores).wp (fsMachine π) w.errand.Paused
        (fun _ _ => True) s := fun stores s h =>
    Prog.wp_mono (endures_tried.mp (archive_endures inj kind h)) (fun _ h => h)
      fun _ _ _ _ => trivial
  obtain ⟨paused, tree', unlocked'⟩ :=
    Errand.restarted (t := w.errand) kind.toSmooth lasts start tree unlocked restarted
  obtain ⟨stores, s₁, stores', running, -, -, hr⟩ :=
    Errand.process_runs (t := w.errand) kind.toSmooth paused tree' unlocked' runs
  obtain ⟨a, rfl, done⟩ :=
    Prog.wp_sound_runs (endures_tried.mp (archive_endures inj kind running)) hr
  obtain ⟨receipt, rfl, finished⟩ := done.finished
  obtain ⟨payload, archived⟩ := finished.archived
  have hroot : stores'.storage.root = w.roots.storage := done.running.root
  exact ⟨receipt, payload, _, rfl, finished.attests, archived, hroot ▸ done.running.storage.safe,
    finished.rest, done.running.stage.1⟩

end

end Archival

end

namespace Reference

def importedState : State Keyed :=
  { State.new "store" "ns" with
    entities := Finmap.insert "e" ⟨online, some "u0"⟩ ∅ }

def stockedDir (d : Dir) : Bool := [[], ["s"], ["layouts", "s"], ["u0", "layouts", "s"]].contains d

def stockedFile (d : Dir) : FileName Keyed → Option (File (Content Keyed))
  | .state => if d == ["s"] then some ⟨.state importedState, true⟩ else none
  | .data => if d == ["u0", "layouts", "s"] then some ⟨.bytes [0], true⟩ else none
  | _ => none

def stocked : Disk (FileName Keyed) (Content Keyed) where
  dir := stockedDir
  file := stockedFile
  safeDir := stockedDir
  safeFile := stockedFile
  locked _ _ := false
  issued _ := false

theorem named_backend : "b" ≠ "" := by decide

theorem unanchored : ∀ a ∈ online.anchors, a.key ≠ ⟨"b", "o"⟩ := nofun

def archival : Archival where
  roots := both
  backend := "b"
  ctx := ⟨"archive", 1, 1⟩
  data := content
  place := ⟨"b", "o"⟩
  entity := ⟨online, some "u0"⟩
  layout := "u0"
  bytes := [0]
  named := named_backend
  qualified := rfl
  published := rfl
  length := rfl
  digest := rfl
  free := unanchored

theorem stocked_paused : archival.errand.Paused stocked where
  top := rfl
  identifies := ⟨by decide, fun f hf => by cases hf⟩
  born := ⟨by decide, by decide⟩
  cells := by
    have stage : importedState.schema = 1 ∧ archival.errand.stage importedState stocked := by
      refine ⟨rfl, ⟨true, rfl⟩,
        .inl (.fresh ⟨rfl, ?_, ?_⟩ ⟨rfl, fun _ _ _ => rfl⟩ ⟨⟨rfl, by decide⟩, ?_, ?_⟩)⟩
      · exact Table.not_any_iff.mpr fun v o ho => by cases ho
      · exact Table.not_any_iff.mpr fun v o ho => by cases ho
      · rfl
      · rfl
    refine ⟨fun f hf => ⟨_, ?_, stage⟩, fun f hf => ⟨_, ?_, stage⟩⟩
    · exact (Option.some.inj hf).symm
    · exact (Option.some.inj hf).symm

def handed : List String :=
  ["h0", "h1", "h2", "h3", "h4", "h5", "h6", "h7", "h8", "h9", "h10", "h11"]

/-- The byte is archived, and where its archive has been killed any number of times too. -/
theorem archive_converges_stocked :
    (∃ r s', Runs (fsMachine (drawing handed)) (HsmEngine.process archival.roots "b"
      (HsmEngine.archive archival.ctx content ⟨"b", "o"⟩) : Io Keyed EntityState).run
        stocked r s') ∧
    ∀ s' r s'', Restarted (fsMachine (drawing handed)) Disk.reboot
      (HsmEngine.process archival.roots "b"
        (HsmEngine.archive archival.ctx content ⟨"b", "o"⟩) : Io Keyed EntityState).run stocked s' →
      Runs (fsMachine (drawing handed)) (HsmEngine.process archival.roots "b"
        (HsmEngine.archive archival.ctx content ⟨"b", "o"⟩) : Io Keyed EntityState).run s' r s'' →
      ∃ receipt payload, r = .ok (online.attached receipt) ∧
        archival.archive.Archived receipt [0] payload s'' := by
  have named : ∀ u ∈ handed, u ≠ "" ∧ u ≠ "s" ∧ u ≠ "layouts" ∧ u ≠ "u0" := by decide
  have unused : ∀ u ∈ handed ++ [], stocked.Unused u := by
    intro u hu
    obtain ⟨-, hs, hl, hu⟩ := named u (by simpa using hu)
    refine ⟨rfl, fun d => ?_, fun d n hn => ?_⟩
    · simp [stocked, stockedDir, hs, hl, hu]
    · have absent : stockedFile d n = none := by
        cases n <;> simp [FileName.bears] at hn <;> rfl
      simp [stocked, Disk.lookup, absent]
  have kind : (drawing handed : Policy (FileName Keyed) (Content Keyed)).Kind :=
    drawing_kind fun u hu => (named u hu).1
  have tree : stocked.Tree := by
    intro x p h
    simp only [stocked, stockedDir, List.contains_eq_mem, List.mem_cons, List.cons.injEq,
      List.not_mem_nil, or_false, decide_eq_true_eq, reduceCtorEq, false_or] at h
    rcases h with ⟨-, rfl⟩ | ⟨-, rfl⟩ | ⟨-, rfl⟩ <;> rfl
  refine ⟨?_, fun s' r s'' restarted runs => ?_⟩
  · have goes : ((HsmEngine.process archival.roots "b" (HsmEngine.archive archival.ctx content
        ⟨"b", "o"⟩) : Io Keyed EntityState).run.trial [] handed stocked).isSome := by
      decide +kernel
    obtain ⟨⟨r, s'⟩, hr⟩ := Option.isSome_iff_exists.mp goes
    exact ⟨r, s', (Prog.trial_runs (by decide) unused hr).1⟩
  · obtain ⟨receipt, payload, -, hr, -, archived, -⟩ :=
      Archival.archive_converges key_injective kind
      stocked_paused tree (fun _ _ => rfl) restarted runs
    exact ⟨receipt, payload, hr, archived⟩

end Reference

end HsmRs
