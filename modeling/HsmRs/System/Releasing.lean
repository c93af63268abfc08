import HsmRs.Archive.Play
import HsmRs.Engine.Release
import HsmRs.Local.Adapters
import HsmRs.Storage.Ownership

/-! # Releasing what has an intact copy

The loop of `release` over the anchors, run against an archive. An anchor that the
archive does not accept or whose object cannot be read back ends the release, also
where a later anchor is intact.
-/

namespace HsmRs

section

variable {κ : Type} [KeyHash κ] [Crates] {π : Policy (FileName κ) (Content κ)}
  {s s' : Disk (FileName κ) (Content κ)}

/-! ## What the archive answers -/

namespace LocalArchive

variable {self : LocalArchive} {archive : ArchiveKey} {receipt : ArchiveReceipt}

/-- The archive holds this receipt and the payload it attests. -/
def Intact (self : LocalArchive) (receipt : ArchiveReceipt) (s : Disk (FileName κ) (Content κ)) :
    Prop :=
  self.Readable receipt.key s ∧ ∃ c, s.reads (objectsDir self.root) (receiptName receipt.key) =
    some (.committed c) ∧ c.receipt = receipt

omit [Crates] in
theorem reads_receipt (hf : Frame Named s s') :
    s'.reads (objectsDir self.root) (receiptName archive) =
      s.reads (objectsDir self.root) (receiptName archive) :=
  hf.reads (K := Named) (n := receiptName archive) fun h => h

theorem readable_frame (hf : Frame Named s s') :
    self.Readable archive s' ↔ self.Readable archive s := by
  have reads : s'.reads (objectsDir self.root) (receiptName archive) =
      s.reads (objectsDir self.root) (receiptName archive) := reads_receipt hf
  refine and_congr_right fun _ => ⟨fun h f hl => ?_, fun h f hl => ?_⟩
  · obtain ⟨x, hx⟩ := Disk.reads_eq_some.mp (reads.trans (Disk.reads_eq_some.mpr ⟨f.synced, hl⟩))
    obtain ⟨c, payload, b, hc, hk, hb⟩ := h _ hx
    exact ⟨c, payload, b, hc, hk, hb.decodes, hb.holds.of_frame hf fun h => h, hb.length, hb.digest⟩
  · obtain ⟨x, hx⟩ :=
      Disk.reads_eq_some.mp (reads.symm.trans (Disk.reads_eq_some.mpr ⟨f.synced, hl⟩))
    obtain ⟨c, payload, b, hc, hk, hb⟩ := h _ hx
    exact ⟨c, payload, b, hc, hk, hb.decodes, hb.holds.frame hf fun h => h, hb.length, hb.digest⟩

theorem intact_frame (hf : Frame Named s s') :
    self.Intact receipt s' ↔ self.Intact receipt s := by
  unfold Intact
  rw [readable_frame hf, reads_receipt hf]

/-- The loop of `release` finds an intact anchor: the archive accepts the keys of those
before it, and what it has of them can be read back. -/
def Verifies (self : LocalArchive) (anchors : List ArchiveReceipt)
    (s : Disk (FileName κ) (Content κ)) : Prop :=
  ∃ before a after, anchors = before ++ a :: after ∧ self.Intact a s ∧
    ∀ b ∈ before, self.Readable b.key s

theorem verifies_frame {anchors : List ArchiveReceipt} (hf : Frame Named s s') :
    self.Verifies anchors s' ↔ self.Verifies anchors s := by
  simp only [Verifies, intact_frame hf, readable_frame hf]

theorem not_verifies_nil : ¬ self.Verifies [] s := by
  rintro ⟨before, a, after, h, -⟩
  simp at h

theorem verifies_cons {anchors : List ArchiveReceipt} : self.Verifies (receipt :: anchors) s ↔
    self.Intact receipt s ∨ self.Readable receipt.key s ∧ self.Verifies anchors s := by
  constructor
  · rintro ⟨_ | ⟨b, before⟩, a, after, h, hi, hb⟩
    · obtain ⟨rfl, -⟩ := List.cons.inj h
      exact .inl hi
    · obtain ⟨rfl, rfl⟩ := List.cons.inj h
      exact .inr ⟨hb _ (.head _), before, a, after, rfl, hi, fun b hm => hb b (.tail _ hm)⟩
  · rintro (hi | ⟨hr, before, a, after, rfl, hi, hb⟩)
    · exact ⟨[], receipt, anchors, rfl, hi, by simp⟩
    · refine ⟨receipt :: before, a, after, rfl, hi, fun b hm => ?_⟩
      rcases List.mem_cons.mp hm with rfl | hm
      · exact hr
      · exact hb b hm

variable [DecidableEq κ]

omit [DecidableEq κ] in
theorem inspect_refused (h : ¬ self.Accepts archive) :
    ∃ e, (self.inspect archive : Io κ _).run = .ret (.error e) := by
  unfold inspect committed
  cases hp : (self.receiptPath archive : HsmResult (FileName κ)) with
  | error e => exact ⟨e, rfl⟩
  | ok n => exact (h (receiptPath_eq_ok.mp hp).1).elim

/-- What an answer of `inspect` says of the disk it was asked on. -/
def Observes (self : LocalArchive) (archive : ArchiveKey) (s : Disk (FileName κ) (Content κ)) :
    HsmResult ArchiveStatus → Prop
  | .ok .absent => self.Readable archive s ∧
      s.reads (objectsDir self.root) (receiptName archive) = none
  | .ok (.committed receipt) => self.Readable archive s ∧
      ∃ c, s.reads (objectsDir self.root) (receiptName archive) = some (.committed c) ∧
        c.receipt = receipt
  | .ok _ => False
  | .error _ => ¬ self.Readable archive s

theorem inspect_observes (hs : π.Smooth) {r : HsmResult ArchiveStatus}
    (h : Runs (fsMachine π) (self.inspect archive).run s r s') :
    self.Observes archive s r ∧ Frame Named s s' ∧ (r.isOk → s'.locked = s.locked) := by
  by_cases ha : self.Accepts archive
  · have := Prog.wp_sound_runs (wp_inspect (C := fun _ => True)
      (Q := fun r s' => self.Observes archive s r ∧ Frame Named s s' ∧
        (r.isOk → s'.locked = s.locked)) (fun _ _ => trivial) ?_ ?_ ?_) h
    · exact this
    · intro hl
      refine ⟨⟨⟨ha, fun f hf => ?_⟩, Disk.reads_eq_none.mpr hl⟩, .refl s, fun _ => rfl⟩
      rw [hl] at hf
      cases hf
    · intro c payload b s' hf
      have hc := Disk.reads_eq_some.mpr hf.object
      refine ⟨⟨⟨ha, fun f hl => ?_⟩, c, hc, rfl⟩, hf.frame, fun _ => hf.locked⟩
      obtain ⟨x, hx⟩ := hf.object
      rw [hx] at hl
      cases hl
      exact ⟨c, payload, b, rfl, hf.key, hf.backed⟩
    · intro e s' hf hn
      exact ⟨fun hr => hn ⟨hs, hr⟩, hf, fun h => by cases h⟩
  · obtain ⟨e, he⟩ :=
      (inspect_refused ha : ∃ e, (self.inspect archive : Io κ _).run = .ret (.error e))
    rw [he] at h
    obtain ⟨rfl, rfl⟩ := Runs.ret_iff.mp h
    exact ⟨fun hr => ha hr.1, .refl _, fun h => by cases h⟩

end LocalArchive

/-! ## The loop over the anchors -/

section

variable [DecidableEq κ] {stores stores' : Stores κ}

theorem runs_inspectArchive {archive : ArchiveKey} {r : HsmResult ArchiveStatus} :
    Runs (fsMachine π) ((HsmEngine.inspectArchive archive).locally stores) s (r, stores') s' ↔
      Runs (fsMachine π) (stores.archive.inspect archive).run s r s' ∧ stores' = stores := by
  refine (Workflow.runs_last (c := .backend (.inspect archive)) (g := id)).trans ?_
  simp only [Stores.answer, Stores.backendCall, id_eq, exists_eq_right',
    Prog.pure_eq, Runs.bind_iff,
    Runs.ret_iff, Prod.mk.injEq]
  constructor
  · rintro ⟨a, s₁, h, ⟨rfl, rfl⟩, rfl⟩
    exact ⟨h, rfl⟩
  · rintro ⟨h, rfl⟩
    exact ⟨r, s', h, ⟨rfl, rfl⟩, rfl⟩

theorem runs_completed {ctx : OperationContext} {data : DataKey} {action : ManagedAction}
    {r : HsmResult (Option EntityState)} :
    Runs (fsMachine π) ((HsmEngine.completed ctx data action).locally stores) s (r, stores') s' ↔
      r = stores.storage.completed ctx data action ∧ stores' = stores ∧ s' = s := by
  refine (Workflow.runs_last (c := .storage (.completed ctx data action)) (g := id)).trans ?_
  simp only [Stores.answer, Stores.storageCall, Prog.pure_eq, Runs.ret_iff, Prod.mk.injEq]
  constructor
  · rintro ⟨x, ⟨⟨rfl, rfl⟩, rfl⟩, rfl⟩
    exact ⟨rfl, rfl, rfl⟩
  · rintro ⟨rfl, rfl, rfl⟩
    exact ⟨_, ⟨⟨rfl, rfl⟩, rfl⟩, rfl⟩

theorem runs_inspectEntity {entity : EntityKey} {r : HsmResult EntityState} :
    Runs (fsMachine π) ((HsmEngine.inspectEntity entity).locally stores) s (r, stores') s' ↔
      r = stores.storage.inspect entity ∧ stores' = stores ∧ s' = s := by
  refine (Workflow.runs_last (c := .storage (.inspect entity)) (g := id)).trans ?_
  simp only [Stores.answer, Stores.storageCall, Prog.pure_eq, Runs.ret_iff, Prod.mk.injEq]
  constructor
  · rintro ⟨x, ⟨⟨rfl, rfl⟩, rfl⟩, rfl⟩
    exact ⟨rfl, rfl, rfl⟩
  · rintro ⟨rfl, rfl, rfl⟩
    exact ⟨_, ⟨⟨rfl, rfl⟩, rfl⟩, rfl⟩

theorem runs_storageRelease {ctx : OperationContext} {expected : EntityState}
    {r : HsmResult EntityState} :
    Runs (fsMachine π)
      (Workflow.locally (ExceptT.mk (Workflow.storage (.release ctx expected))) stores)
      s (r, stores') s' ↔ ∃ self', Runs (fsMachine π) (stores.storage.release ctx expected) s
        (r, self') s' ∧ stores' = { stores with storage := self' } := by
  refine (Workflow.runs_last (c := .storage (.release ctx expected)) (g := id)).trans ?_
  simp only [Stores.answer, Stores.storageCall, Stores.onStorage, Prog.pure_eq, Runs.bind_iff,
    Runs.ret_iff, Prod.exists, Prod.mk.injEq]
  constructor
  · rintro ⟨x, ⟨a, self', s₁, hr, ⟨rfl, rfl⟩, rfl⟩, rfl⟩
    exact ⟨self', hr, rfl⟩
  · rintro ⟨self', hr, rfl⟩
    exact ⟨r, ⟨r, self', s', hr, ⟨rfl, rfl⟩, rfl⟩, rfl⟩

theorem verifyAnchors_runs (hs : π.Smooth) {expected : EntityState} {anchors : List ArchiveReceipt}
    (attests : ∀ a ∈ anchors,
      HsmEngine.checkReceipt a expected.data a.key expected.length expected.digest = .ok ())
    {r : HsmResult Bool}
    (h : Runs (fsMachine π) ((HsmEngine.verifyAnchors expected anchors).locally stores) s
      (r, stores') s') :
    stores' = stores ∧ Frame Named s s' ∧ (∀ d, s'.dir d = true → s.dir d = true) ∧
      (r = .ok true ↔ stores.archive.Verifies anchors s) ∧
        (r = .ok true → s'.locked = s.locked) := by
  induction anchors generalizing s with
  | nil =>
    obtain ⟨rfl, rfl, rfl⟩ := Workflow.runs_pure.mp h
    refine ⟨rfl, .refl s', fun _ hd => hd, ?_, by simp⟩
    simp [LocalArchive.not_verifies_nil]
  | cons anchor rest ih =>
    have ih := fun {s₁} => @ih s₁ fun a hm => attests a (.tail _ hm)
    unfold HsmEngine.verifyAnchors at h
    rw [Workflow.runs_check, attests anchor (.head _)] at h
    obtain ⟨x, t, s₁, hi, h⟩ := Workflow.runs_bind.mp h
    obtain ⟨hi, rfl⟩ := runs_inspectArchive.mp hi
    obtain ⟨ho, f₁, k₁⟩ := LocalArchive.inspect_observes hs hi
    have d₁ : ∀ d, s₁.dir d = true → s.dir d = true :=
      fun d => hi.dir_of (LocalArchive.within_inspect (fun _ _ => trivial) (fun _ _ => trivial)
        fun _ => trivial)
    rw [LocalArchive.verifies_cons]
    -- the anchor is passed over, and the rest decides
    have onward : x.isOk → t.archive.Readable anchor.key s → ¬ t.archive.Intact anchor s →
        Runs (fsMachine π) ((HsmEngine.verifyAnchors expected rest).locally t) s₁ (r, stores') s' →
        stores' = t ∧ Frame Named s s' ∧ (∀ d, s'.dir d = true → s.dir d = true) ∧
          (r = .ok true ↔ t.archive.Intact anchor s ∨
            t.archive.Readable anchor.key s ∧ t.archive.Verifies rest s) ∧
          (r = .ok true → s'.locked = s.locked) := by
      intro hx hr hn h
      obtain ⟨rfl, f₂, d₂, hv, k₂⟩ := ih h
      rw [LocalArchive.verifies_frame f₁] at hv
      refine ⟨rfl, f₁.trans f₂, fun d hd => d₁ d (d₂ d hd), ?_, fun hr => (k₂ hr).trans (k₁ hx)⟩
      simp only [hv, hn, hr, true_and, false_or]
    cases x with
    | error e =>
      obtain ⟨rfl, rfl, rfl⟩ := h
      have hn : ¬ stores'.archive.Readable anchor.key s := ho
      refine ⟨rfl, f₁, d₁, ?_, by simp⟩
      simp only [LocalArchive.Intact, hn, false_and, or_self, reduceCtorEq]
    | ok status =>
      cases status with
      | absent =>
        refine onward rfl ho.1 (fun hn => ?_) h
        obtain ⟨c, hc, -⟩ := hn.2
        rw [ho.2] at hc
        cases hc
      | committed actual =>
        obtain ⟨hr, c, hc, rfl⟩ := ho
        dsimp only at h
        split at h
        · rename_i he
          obtain ⟨rfl, rfl, rfl⟩ := Workflow.runs_pure.mp h
          refine ⟨rfl, f₁, d₁, ?_, fun _ => k₁ rfl⟩
          simp only [true_iff]
          exact .inl ⟨hr, c, hc, he⟩
        · rename_i he
          refine onward rfl hr (fun hn => he ?_) h
          obtain ⟨c', hc', hr'⟩ := hn.2
          rw [hc] at hc'
          cases hc'
          exact hr'
      | pending => exact ho.elim
      | unknown => exact ho.elim

end

/-! ## What storage records of anchors -/

/-- Every anchor names its receipt and says how durable it is. -/
def Attested (entities : Table String Entity) : Prop :=
  ∀ id e, entities.lookup id = some e →
    ∀ a ∈ e.public.anchors, a.receiptId ≠ "" ∧ a.durabilityProfile ≠ ""

omit [Crates] in
theorem Attested.insert {entities : Table String Entity} (h : Attested entities) {id : String}
    {e : Entity} (he : ∀ a ∈ e.public.anchors, a.receiptId ≠ "" ∧ a.durabilityProfile ≠ "") :
    Attested (entities.insert id e) := by
  intro id' e' hl
  rw [Table.lookup_insert] at hl
  split at hl
  · cases hl
    exact he
  · exact h id' e' hl

section

variable [DecidableEq κ] {root : Dir} {π₀ : Policy (FileName κ) (Content κ)} {w : World κ}

theorem State.attested_closed : Closed root fun st : State κ => Attested st.entities := by
  intro fresh st request answer next h hs
  cases hs with
  | failed => exact h
  | done _ _ he =>
    cases he with
    | prepareArchive => exact h
    | @commitArchive view receipt e _ he hb _ _ =>
      have old := h _ _ (State.entity_eq_ok.mp he).2.1
      refine h.insert fun a hm => ?_
      simp only [EntityState.attached] at hm
      split at hm
      · exact old a hm
      · rcases List.mem_append.mp hm with hm | hm
        · exact old a hm
        · obtain rfl := List.mem_singleton.mp hm
          obtain ⟨-, -, -, hi, hp⟩ := hb
          exact ⟨hi, by simp [hp]⟩
    | release he =>
      have old := h _ _ (State.entity_eq_ok.mp he).2.1
      exact h.insert old
    | prepareRecall => exact h
    | commitRecall _ he =>
      have old := h _ _ (State.entity_eq_ok.mp he).2.1
      exact h.insert old
  | imported => exact h.insert (List.forall_mem_nil _)
  | collected => exact h

theorem World.Reachable.attested (h : w.Reachable π₀ root) :
    w.Keeps π₀ root fun _ st => st.Coherent root ∧ Attested st.entities := by
  refine h.keeps (Closed.stable fun _ _ _ _ _ h hs => ⟨State.Coherent.closed _ _ _ _ _ h.1 hs,
    State.attested_closed _ _ _ _ _ h.2 hs⟩) fun _ a b => ⟨.new, fun id e hl => ?_⟩
  simp [State.new] at hl

/-! ## The release -/

/-- A healthy store in which a new operation can release the entity as it is expected: it is
dual and published in `layout`, and nobody has it pinned or under way. -/
structure LocalStorage.Ready (store : LocalStorage κ) (ctx : OperationContext)
    (expected : EntityState) (layout : String) (s : Disk (FileName κ) (Content κ)) : Prop where
  healthy : store.poisoned = false
  qualified : LocalStorage.qualify ctx = .ok ()
  current : store.state.entity expected.data = .ok ⟨expected, some layout⟩
  dual : expected.residency = .dual
  fresh : store.state.completed.lookup ctx.operationId = none ∧
    store.state.steps.lookup (key (.step ctx .release)) = none
  unpinned : ¬ store.state.views.Any (fun v => v.view.data = expected.data)
  idle : s.locked (layoutDir store.root layout) .transferLock = false

omit [KeyHash κ] [Crates] [DecidableEq κ] in
theorem LocalStorage.inspect_eq_ok {store : LocalStorage κ} {entity : EntityKey} {x : EntityState} :
    store.inspect entity = .ok x ↔ store.poisoned = false ∧ store.state.Owns entity ∧
      ∃ e, store.state.entities.lookup entity.entity = some e ∧ e.public = x := by
  unfold inspect
  simp only [HsmResult.bind_eq_ok, HsmResult.okOr_eq_ok, HsmResult.pure_eq_ok, ← healthy_eq_ok,
    ← State.validateKey_eq_ok]
  constructor
  · rintro ⟨⟨⟩, hh, ⟨⟩, hv, he⟩
    exact ⟨hh, hv, he⟩
  · rintro ⟨hh, hv, he⟩
    exact ⟨(), hh, (), hv, he⟩

namespace LocalStorage.Ready

variable {store store' : LocalStorage κ} {ctx : OperationContext} {expected : EntityState}
  {layout : String}

theorem unrecalled (h : store.Ready ctx expected layout s) (hc : store.state.Coherent root) :
    ¬ store.state.recalls.Any (fun r => r.target.data = expected.data) := by
  rw [Table.not_any_iff]
  intro l o hl hd
  have hx := (State.entity_eq_ok.mp h.current).2.1
  exact hc.not_reserved hx (by simp) hl (by rw [hd])

/-- The release of storage goes well if and only if the published layout is in place. -/
theorem release_runs (h : store.Ready ctx expected layout s) (hc : store.state.Coherent root)
    (hn : expected.anchors ≠ []) (hs : π.Smooth)
    (safe : s.Safe store.root .state (.state store.state)) {r : HsmResult EntityState}
    (hr : Runs (fsMachine π) (store.release ctx expected) s (r, store') s') :
    (r = .ok expected.released ∧ store'.inspect expected.data.entity = .ok expected.released) ↔
      s.dir (layoutDir store.root layout) = true := by
  obtain ⟨owns, current, -⟩ := State.entity_eq_ok.mp h.current
  have root_dir : s.dir store.root = true := Disk.dir_of_lookup (n := .state) (by simp [safe.1])
  have fails : ∀ {e} {x : LocalStorage κ}, s.dir (layoutDir store.root layout) = false →
      ((.error e : HsmResult EntityState) = .ok expected.released ∧
        x.inspect expected.data.entity = .ok expected.released ↔
        s.dir (layoutDir store.root layout) = true) := by
    intro e x hd
    simp [hd]
  suffices spec : (store.release ctx expected).wp (fsMachine π) (fun _ => True)
      (fun x _ => x.1 = .ok expected.released ∧
        x.2.inspect expected.data.entity = .ok expected.released ↔
        s.dir (layoutDir store.root layout) = true) s by
    have := Prog.wp_sound_runs spec hr
    exact this
  unfold LocalStorage.release
  refine wp_step h.healthy trivial ?_ ?_ ?_
  · intro e hq
    rw [h.qualified] at hq
    cases hq
  · intro saved _ hl
    have : store.state.steps.lookup (key (.step ctx .release)) = some saved := hl
    rw [h.fresh.2] at this
    cases this
  intro _ _
  unfold releaseEffect
  apply Prog.wp_run_bind_of
  rw [State.releasable_eq_ok.mpr
    ⟨_, h.current, rfl, hn, h.unpinned, h.unrecalled hc, rfl⟩]
  refine ⟨trivial, ?_⟩
  refine wp_withTransferLock trivial (fun _ _ _ => trivial) (fun e _ hr => ?_) (fun m _ _ hr => ?_)
    fun hd _ => ?_
  · have hd : s.dir (layoutDir store.root layout) = false := hr.resolve_left fun hn => hn hs
    refine ⟨fun _ => fails hd, fun f _ => ?_⟩
    exact wp_adopt (fun _ _ => trivial) (fun _ _ _ _ => fails hd) fun _ _ _ _ _ => fails hd
  · have := hr.resolve_left fun hn => hn hs
    rw [h.idle] at this
    cases this
  · have admits : store.state.Admits ctx expected.data .release := by
      intro old ho
      rw [h.fresh.1] at ho
      cases ho
    rw [Prog.run_liftM, State.detach_eq_ok.mpr ⟨_, current, admits, rfl, rfl⟩]
    refine ⟨trivial, wp_adopt (fun _ _ => trivial) (fun _ _ _ _ => ?_) fun _ _ _ _ hr => ?_⟩
    · refine iff_of_true ⟨rfl, inspect_eq_ok.mpr ⟨h.healthy, owns, ?_⟩⟩ hd
      exact ⟨⟨expected.released, none⟩, by simp [State.record], rfl⟩
    · have : s.dir store.root = false := hr.resolve_left fun hn => hn hs
      rw [root_dir] at this
      cases this

end LocalStorage.Ready

/-- From every reachable state in which storage is ready to release an entity, and where no
operation fails, the release goes well and leaves the entity offline if and only if the
published layout is in place and the archive accepts every anchor before the first intact one
and can read back what it has of it. -/
theorem HsmEngine.released_iff_verifies (h : w.Reachable π₀ root) {store : LocalStorage κ}
    (hw : w.handle = some store) {ctx : OperationContext} {expected : EntityState}
    {layout : String} (ready : store.Ready ctx expected layout w.disk) (hs : π.Smooth)
    (archive : LocalArchive) {r : HsmResult EntityState} {stores : Stores κ}
    (hr : Runs (fsMachine π) ((release ctx expected).locally ⟨store, archive⟩) w.disk
      (r, stores) s') :
    (r = .ok expected.released ∧
        stores.storage.inspect expected.data.entity = .ok expected.released) ↔
      archive.Verifies expected.anchors w.disk ∧ w.disk.dir (layoutDir root layout) = true := by
  have keeps := h.attested
  obtain rfl := keeps.root_eq store hw
  obtain ⟨coherent, attested⟩ := keeps.cached store hw
  have safe := keeps.safe store hw ready.healthy
  obtain ⟨owns, current, -⟩ := State.entity_eq_ok.mp ready.current
  have fits := coherent.entity _ _ current
  have anchored : expected.anchors ≠ [] := fun hn => by
    have := fits.online.mpr hn
    rw [show _ = expected.residency from rfl, ready.dual] at this
    cases this
  have attests : ∀ a ∈ expected.anchors,
      checkReceipt a expected.data a.key expected.length expected.digest = .ok () := fun a hm => by
    obtain ⟨hd, hl, hg⟩ := fits.anchors a hm
    obtain ⟨hi, hp⟩ := attested _ _ current a hm
    exact checkReceipt_eq_ok.mpr ⟨rfl, hd, hl, hg, hi, hp⟩
  obtain ⟨⟨⟩, valid, -⟩ := HsmResult.bind_eq_ok.mp ready.qualified
  have uncompleted : store.completed ctx expected.data .release = .ok none := by
    unfold LocalStorage.completed
    rw [ready.qualified, LocalStorage.healthy_eq_ok.mpr ready.healthy,
      State.validateKey_eq_ok.mpr owns, ready.fresh.1]
    rfl
  have observed : store.inspect expected.data.entity = .ok expected :=
    LocalStorage.inspect_eq_ok.mpr ⟨ready.healthy, owns, _, current, rfl⟩
  unfold release at hr
  rw [Workflow.runs_check, valid] at hr
  obtain ⟨x, t, s₁, hc, hr⟩ := Workflow.runs_bind.mp hr
  obtain ⟨rfl, rfl, rfl⟩ := runs_completed.mp hc
  rw [uncompleted] at hr
  obtain ⟨x, t, s₁, hc, hr⟩ := Workflow.runs_bind.mp hr
  obtain ⟨rfl, rfl, rfl⟩ := runs_inspectEntity.mp hc
  rw [observed] at hr
  simp only [Workflow.runs_guard, ne_eq, not_true_eq_false, false_and, not_false_eq_true, true_and,
    false_or, anchored] at hr
  obtain ⟨x, t, s₁, hc, hr⟩ := Workflow.runs_bind.mp hr
  obtain ⟨rfl, f₁, d₁, hv, k₁⟩ := verifyAnchors_runs hs attests hc
  rcases x with e | verified
  · obtain ⟨rfl, -, -⟩ := hr
    simp [← hv]
  cases verified with
  | false =>
    obtain ⟨rfl, -, -⟩ := Workflow.runs_throw.mp hr
    simp [← hv]
  | true =>
    obtain ⟨self', released, rfl⟩ := runs_storageRelease.mp hr
    have still : store.Ready ctx expected layout s₁ :=
      { ready with idle := by rw [k₁ rfl]; exact ready.idle }
    have := still.release_runs coherent anchored hs (safe.frame f₁ fun h => h) released
    refine this.trans ?_
    have hd : s₁.dir (layoutDir store.root layout) = true ↔
        w.disk.dir (layoutDir store.root layout) = true :=
      ⟨d₁ _, f₁.dir _ .data fun h => h⟩
    rw [hd, ← hv]
    simp

end

end

/-! ## An entity archived to two backends -/

namespace Reference

def foreign : ArchiveReceipt := { receipt with key := ⟨"c", "o"⟩ }

def releasing : OperationContext := ⟨"release", 1, 1⟩

def twofold : EntityState := (online.attached foreign).attached receipt

def pinned (viewId : String) : DataView :=
  { view with viewId, source := endpoint ["u1", "layouts", "s"] }

def anchoring : Option (World Keyed) :=
  (attempting.bind committed).bind fun x =>
    (World.start ["s"] ["store", "ns", "k1"] x.2).bind <| World.play (fun _ => false)
      [(.import "e" [0], ["u1", "k2", "k3"]),
        (.step ⟨"one", 1, 1⟩ (.prepareArchive content), ["v", "k4"]),
        (.step ⟨"one", 1, 1⟩ (.commitArchive (pinned "v") foreign), ["k5"]),
        (.step ⟨"two", 1, 1⟩ (.prepareArchive content), ["w", "k6"]),
        (.step ⟨"two", 1, 1⟩ (.commitArchive (pinned "w") receipt), ["k7"])]

def asBytes : Content Keyed → Option Bytes
  | .bytes b => some b
  | _ => none

def asCommitted : Content Keyed → Option Committed
  | .committed c => some c
  | _ => none

/-- No operation fails, and no name is handed out. -/
def nameless : Policy (FileName Keyed) (Content Keyed) where
  uuid _ _ := False
  faults := false
  exact := true

theorem nameless_smooth : nameless.Smooth where
  faultless := rfl
  dir _ _ _ h := h.elim
  tmp _ _ _ h := h.elim
  receiptTmp _ _ _ h := h.elim

theorem intact_of {s : Disk (FileName Keyed) (Content Keyed)}
    (hc : (s.reads ["objects", "a"] (LocalArchive.receiptName receipt.key)).bind asCommitted =
      some ⟨receipt, endpoint ["u0", "attempts", "a"]⟩)
    (hb : (s.reads ["u0", "attempts", "a"] .data).bind asBytes = some [0]) :
    LocalArchive.Intact ⟨["a"], "b"⟩ receipt s := by
  obtain ⟨x, hx, hc⟩ := Option.bind_eq_some_iff.mp hc
  obtain ⟨y, hy, hb⟩ := Option.bind_eq_some_iff.mp hb
  obtain rfl : x = .committed ⟨receipt, endpoint ["u0", "attempts", "a"]⟩ := by
    cases x <;> simp_all [asCommitted]
  obtain rfl : y = .bytes [0] := by cases y <;> simp_all [asBytes]
  refine ⟨⟨⟨rfl, by decide⟩, fun f hl => ?_⟩, _, hx, rfl⟩
  obtain ⟨z, hz⟩ := Disk.reads_eq_some.mp hx
  obtain rfl : f = _ := Option.some.inj (hl.symm.trans hz)
  exact ⟨_, ["u0", "attempts", "a"], [0], rfl, rfl, ⟨_, decodeEndpoint_endpoint _, rfl⟩,
    Disk.reads_eq_some.mp hy, rfl, rfl⟩

theorem anchoring_refused : ∃ (w : World Keyed) (store : LocalStorage Keyed) (stores : Stores Keyed)
    (s' : Disk (FileName Keyed) (Content Keyed)), w.Reachable anything ["s"] ∧
    w.handle = some store ∧ store.Ready releasing twofold "u1" w.disk ∧
    w.disk.dir (layoutDir ["s"] "u1") = true ∧ LocalArchive.Intact ⟨["a"], "b"⟩ receipt w.disk ∧
    Runs (fsMachine nameless) ((HsmEngine.release releasing twofold).locally ⟨store, ["a"], "b"⟩)
      w.disk (.error (.invalid "archive key belongs to a different backend or is empty"), stores)
      s' := by
  have hd : (anchoring.bind fun w => w.handle.map fun store =>
      (store.poisoned, (store.state.entity content).toOption, store.state.views.keys,
        w.disk.locked ["u1", "layouts", "s"] .transferLock, w.disk.dir ["u1", "layouts", "s"])) =
      some (false, some ⟨twofold, some "u1"⟩, ∅, false, true) := by decide +kernel
  have hn : (anchoring.bind fun w => w.handle.map fun store =>
      ((store.state.completed.lookup "release").isSome,
        (store.state.steps.lookup (key (.step releasing .release))).isSome)) =
      some (false, false) := by decide +kernel
  have ha : (anchoring.map fun w =>
      ((w.disk.reads ["objects", "a"] (LocalArchive.receiptName receipt.key)).bind asCommitted,
        (w.disk.reads ["u0", "attempts", "a"] .data).bind asBytes)) =
      some (some ⟨receipt, endpoint ["u0", "attempts", "a"]⟩, some [0]) := by decide +kernel
  have hr : (anchoring.bind fun w => w.handle.map fun store =>
      (((HsmEngine.release releasing twofold).locally ⟨store, ["a"], "b"⟩).exec
        (fun _ => false) 100 []
        w.disk).1.map (·.1)) =
      some (some (.error (.invalid "archive key belongs to a different backend or is empty"))) := by
    decide +kernel
  have hs : ((attempting.bind committed).map fun x =>
      ((x.2.lookup ["s"] .state).isSome, (x.2.safeFile ["s"] .state).isSome)) =
      some (false, false) := by decide +kernel
  obtain ⟨x, hx, hw⟩ : ∃ x, attempting.bind committed = some x ∧ ∃ w₀,
      World.start ["s"] ["store", "ns", "k1"] x.2 = some w₀ ∧ ∃ w, anchoring = some w ∧
        World.Steps anything ["s"] w₀ w := by
    obtain ⟨w, hw, -⟩ := Option.bind_eq_some_iff.mp hd
    obtain ⟨x, hx, h₁⟩ := Option.bind_eq_some_iff.mp hw
    obtain ⟨w₀, h₀, h₁⟩ := Option.bind_eq_some_iff.mp h₁
    exact ⟨x, hx, w₀, h₀, w, hw, World.play_steps anything_generous (.inl rfl) h₁⟩
  obtain ⟨w₀, h₀, w, hw, steps⟩ := hw
  rw [hx, Option.map_some, Option.some.injEq, Prod.mk.injEq] at hs
  simp only [Option.isSome_eq_false_iff, Option.isNone_iff_eq_none] at hs
  rw [hw] at hd hn ha hr
  cases hh : w.handle with
  | none => simp [hh] at hd
  | some store =>
    simp only [hh, Option.bind_some, Option.map_some, Option.some.injEq,
      Prod.mk.injEq] at hd hn ha hr
    have reachable : w.Reachable anything ["s"] :=
      (World.start_reachable anything_generous hs.1 hs.2 h₀).steps steps
    have hroot : store.root = ["s"] := reachable.coherent.root_eq store hh
    obtain ⟨healthy, entity, views, idle, dir⟩ := hd
    have current : store.state.entity content = .ok ⟨twofold, some "u1"⟩ := by
      cases he : store.state.entity content <;> simp_all [Except.toOption]
    have unpinned : store.state.views = ∅ := by
      refine Finmap.ext_lookup fun v => ?_
      rw [Finmap.lookup_empty, Finmap.lookup_eq_none, ← Finmap.mem_keys, views]
      simp
    obtain ⟨⟨answer, stores⟩, he, hr⟩ := Option.map_eq_some_iff.mp hr
    obtain rfl : answer = _ := hr
    have unnamed : ∀ u ∈ ([] : List String), ∀ s : Disk (FileName Keyed) (Content Keyed),
        s.issued u = false → nameless.uuid s u := by simp
    have run := (Prog.exec_sound (π := nameless) unnamed (.inr fun _ => rfl)).1 _ he
    refine ⟨w, store, stores, _, reachable, hh, ⟨healthy, rfl, current, rfl, ?_, ?_, ?_⟩, dir,
      intact_of ha.1 ha.2, run⟩
    · simp only [Option.isSome_eq_false_iff, Option.isNone_iff_eq_none] at hn
      exact hn
    · simp [unpinned, Table.any_iff]
    · rw [hroot]
      exact idle

/-- What is known of the release of this entity: it fails, although an intact copy exists. -/
theorem released_iff_verifies_anchoring : ∃ (w : World Keyed) (store : LocalStorage Keyed),
    w.handle = some store ∧ store.Ready releasing twofold "u1" w.disk ∧
    LocalArchive.Intact ⟨["a"], "b"⟩ receipt w.disk ∧ receipt ∈ twofold.anchors ∧
    ¬ LocalArchive.Verifies ⟨["a"], "b"⟩ twofold.anchors w.disk := by
  obtain ⟨w, store, stores, s', hw, hh, ready, hd, hi, hr⟩ := anchoring_refused
  have := HsmEngine.released_iff_verifies hw hh ready nameless_smooth ⟨["a"], "b"⟩ hr
  refine ⟨w, store, hh, ready, hi, by decide, fun hv => ?_⟩
  cases (this.mpr ⟨hv, hd⟩).1

/-- The claim at this entity, whose second anchor is the intact one. -/
theorem not_released_anywhere : ¬ ∀ (w : World Keyed) (store : LocalStorage Keyed)
    (ctx : OperationContext) (expected : EntityState) (layout : String) (archive : LocalArchive)
    (r : HsmResult EntityState) (stores : Stores Keyed)
    (s' : Disk (FileName Keyed) (Content Keyed)),
    w.Reachable anything ["s"] → w.handle = some store → store.Ready ctx expected layout w.disk →
    w.disk.dir (layoutDir ["s"] layout) = true →
    (∃ anchor ∈ expected.anchors, archive.Intact anchor w.disk) →
    Runs (fsMachine nameless) ((HsmEngine.release ctx expected).locally ⟨store, archive⟩) w.disk
      (r, stores) s' → r = .ok expected.released := by
  intro h
  obtain ⟨w, store, stores, s', hw, hh, ready, hd, hi, hr⟩ := anchoring_refused
  have := h w store _ _ _ _ _ stores s' hw hh ready hd ⟨receipt, by decide, hi⟩ hr
  cases this

end Reference

end HsmRs
