import HsmRs.Local.Storage

/-! # The effects of the protected steps

What a protected step that succeeds has found in the metadata and what it makes
of it. Every property of the metadata is derived from these five cases.
-/

namespace HsmRs

variable {κ α β : Type}

namespace HsmResult

variable {x : HsmResult α} {f : α → HsmResult β} {b : β} {e : HsmError}

@[simp] theorem bind_eq_ok : (x >>= f) = .ok b ↔ ∃ a, x = .ok a ∧ f a = .ok b := by
  cases x with
  | ok a => simp [bind, Except.bind]
  | error e => simp [bind, Except.bind]

@[simp] theorem guard_eq_ok {c : Prop} [Decidable c] {k : α → HsmResult β} {y : HsmResult β} :
    (if c then throw e >>= k else y) = .ok b ↔ ¬ c ∧ y = .ok b := by
  by_cases h : c
  · simp only [h, if_true, bind_eq_ok, not_true_eq_false, false_and, iff_false]
    rintro ⟨a, ha, -⟩
    cases ha
  · simp [h]

@[simp] theorem check_eq_ok {c : Prop} [Decidable c] :
    (if c then throw e else pure () : HsmResult Unit) = .ok () ↔ ¬ c := by
  by_cases h : c <;> simp [h, pure, Except.pure, throw, throwThe, MonadExceptOf.throw]

@[simp] theorem pure_eq_ok {a b : α} : (pure a : HsmResult α) = .ok b ↔ a = b := by
  simp [pure, Except.pure]

@[simp] theorem okOr_eq_ok {o : Option α} {a : α} : okOr o e = .ok a ↔ o = some a := by
  cases o <;> simp [okOr]

end HsmResult

namespace State

/-- The store and namespace of `entity` are those of the metadata. -/
def Owns (self : State κ) (entity : EntityKey) : Prop :=
  entity.storage = self.storageId ∧ entity.namespace = self.namespace ∧ entity.entity ≠ ""

/-- No other context, entity or action has completed under the operation ID of `ctx`. -/
def Admits (self : State κ) (ctx : OperationContext) (data : DataKey) (action : ManagedAction) :
    Prop :=
  ∀ old, self.completed.lookup ctx.operationId = some old →
    old.context = ctx ∧ old.data = data ∧ old.action = action

def complete (self : State κ) (ctx : OperationContext) (data : DataKey) (action : ManagedAction)
    (state : EntityState) : State κ :=
  { self with completed := self.completed.insert ctx.operationId ⟨ctx, data, action, state⟩ }

theorem validateKey_eq_ok {self : State κ} {entity : EntityKey} :
    self.validateKey entity = .ok () ↔ self.Owns entity := by
  unfold validateKey Owns
  grind

theorem entity_eq_ok {self : State κ} {data : DataKey} {e : Entity} :
    self.entity data = .ok e ↔ self.Owns data.entity ∧
      self.entities.lookup data.entity.entity = some e ∧ e.public.data = data := by
  unfold entity
  simp only [HsmResult.bind_eq_ok, HsmResult.okOr_eq_ok, HsmResult.guard_eq_ok,
    HsmResult.pure_eq_ok, ← validateKey_eq_ok]
  constructor
  · rintro ⟨⟨⟩, hv, a, hl, hd, rfl⟩
    exact ⟨hv, hl, by simpa using hd⟩
  · rintro ⟨hv, hl, hd⟩
    exact ⟨(), hv, e, hl, by simpa using hd, rfl⟩

theorem finish_eq_ok {self next : State κ} {ctx : OperationContext} {data : DataKey}
    {action : ManagedAction} {state : EntityState} :
    self.finish ctx data action state = .ok next ↔
      self.Admits ctx data action ∧ next = self.complete ctx data action state := by
  unfold finish Admits complete
  cases h : self.completed.lookup ctx.operationId with
  | none => simp [eq_comm]
  | some old => grind

end State

/-- The receipt attests the content of the view, durably and under a name. -/
def ArchiveReceipt.Binds (receipt : ArchiveReceipt) (view : DataView) : Prop :=
  receipt.data = view.data ∧ receipt.length = view.length ∧ receipt.digest = view.digest ∧
    receipt.receiptId ≠ "" ∧ receipt.durabilityProfile = "local-fsync-v1"

namespace EntityState

def attached (self : EntityState) (receipt : ArchiveReceipt) : EntityState :=
  { self with
    anchors := if receipt ∈ self.anchors then self.anchors else self.anchors ++ [receipt]
    residency := .dual
    revision := self.revision + 1 }

def released (self : EntityState) : EntityState :=
  { self with residency := .offline, revision := self.revision + 1 }

def recalled (self : EntityState) : EntityState :=
  { self with residency := .dual, revision := self.revision + 1 }

end EntityState

namespace State

theorem attachAnchor_eq_ok {self next : State κ} {ctx : OperationContext} {view : DataView}
    {receipt : ArchiveReceipt} {result : EntityState} :
    self.attachAnchor ctx view receipt = .ok (result, next) ↔
      ∃ e, self.entity view.data = .ok e ∧ receipt.Binds view ∧
        (∀ a ∈ e.public.anchors, a.key = receipt.key → a = receipt) ∧
        self.Admits ctx view.data (.archive receipt.key) ∧
        result = e.public.attached receipt ∧
        next = { self with
          entities := self.entities.insert view.data.entity.entity { e with «public» := result }
          views := self.views.erase view.viewId
          completed := self.completed.insert ctx.operationId
            ⟨ctx, view.data, .archive receipt.key, result⟩ } := by
  unfold attachAnchor
  simp only [HsmResult.bind_eq_ok, HsmResult.guard_eq_ok, HsmResult.okOr_eq_ok,
    HsmResult.pure_eq_ok, finish_eq_ok]
  constructor
  · rintro ⟨e, he, hb, e', he', hs, next, ⟨ha, rfl⟩, hr⟩
    obtain rfl : e = e' := by
      rw [(entity_eq_ok.mp he).2.1] at he'
      exact Option.some.inj he'
    cases hr
    refine ⟨e, he, by simpa [ArchiveReceipt.Binds] using hb, ?_, ha, rfl, rfl⟩
    exact fun a hm hk => by_contra fun hn => hs ⟨a, hm, hk, hn⟩
  · rintro ⟨e, he, hb, hs, ha, rfl, rfl⟩
    refine ⟨e, he, by simpa [ArchiveReceipt.Binds] using hb, e, (entity_eq_ok.mp he).2.1, ?_,
      _, ⟨ha, rfl⟩, rfl⟩
    rintro ⟨a, hm, hk, hn⟩
    exact hn (hs a hm hk)

theorem releasable_eq_ok {self : State κ} {expected : EntityState} {layout : String} :
    self.releasable expected = .ok layout ↔
      ∃ e, self.entity expected.data = .ok e ∧ e.public = expected ∧ expected.anchors ≠ [] ∧
        ¬ self.views.Any (fun v => v.view.data = expected.data) ∧
        ¬ self.recalls.Any (fun r => r.target.data = expected.data) ∧
        e.published = some layout := by
  unfold releasable
  simp only [HsmResult.bind_eq_ok, HsmResult.guard_eq_ok, HsmResult.okOr_eq_ok, not_or, not_not,
    and_assoc, ne_eq]

theorem detach_eq_ok {self next : State κ} {ctx : OperationContext} {expected result : EntityState}
    {layout : String} :
    self.detach ctx expected layout = .ok (result, next) ↔
      ∃ e, self.entities.lookup expected.data.entity.entity = some e ∧
        self.Admits ctx expected.data .release ∧ result = e.public.released ∧
        next = { self with
          entities := self.entities.insert expected.data.entity.entity ⟨result, none⟩
          gc := self.gc ++ [layout]
          completed := self.completed.insert ctx.operationId
            ⟨ctx, expected.data, .release, result⟩ } := by
  unfold detach
  simp only [HsmResult.bind_eq_ok, HsmResult.okOr_eq_ok, HsmResult.pure_eq_ok, finish_eq_ok]
  constructor
  · rintro ⟨e, he, next, ⟨ha, rfl⟩, hr⟩
    cases hr
    exact ⟨e, he, ha, rfl, rfl⟩
  · rintro ⟨e, he, ha, rfl, rfl⟩
    exact ⟨e, he, _, ⟨ha, rfl⟩, rfl⟩

theorem recallable_eq_ok {self : State κ} {expected : EntityState} {anchor : ArchiveReceipt} :
    self.recallable expected anchor = .ok () ↔
      ∃ e, self.entity expected.data = .ok e ∧ e.public = expected ∧ e.published = none ∧
        anchor ∈ e.public.anchors ∧
          ¬ self.recalls.Any (fun r => r.target.data = expected.data) := by
  unfold recallable
  simp only [HsmResult.bind_eq_ok, HsmResult.guard_eq_ok, HsmResult.check_eq_ok, not_or, not_not,
    and_assoc, ne_eq, Option.isSome_iff_ne_none]

theorem sealable_eq_ok {self : State κ} {owner : RecallOwner} {target : RecallTarget}
    {evidence : TransferEvidence} {length : Nat} {digest : ContentDigest} :
    self.sealable owner target evidence length digest = .ok () ↔
      ∃ e, self.entity target.data = .ok e ∧ e.published = none ∧ owner.anchor ∈ e.public.anchors ∧
        evidence = ⟨length, digest⟩ ∧ length = e.public.length ∧ digest = e.public.digest := by
  unfold sealable
  simp only [HsmResult.bind_eq_ok, HsmResult.guard_eq_ok, HsmResult.check_eq_ok, not_or, not_not,
    and_assoc, ne_eq, Option.isSome_iff_ne_none]
  cases evidence
  simp only [TransferEvidence.mk.injEq, and_assoc]

theorem publish_eq_ok {self next : State κ} {ctx : OperationContext} {target : RecallTarget}
    {result : EntityState} :
    self.publish ctx target = .ok (result, next) ↔
      ∃ e, self.entities.lookup target.data.entity.entity = some e ∧
        self.Admits ctx target.data (.«recall» target.archive) ∧ result = e.public.recalled ∧
        next = { self with
          entities := self.entities.insert target.data.entity.entity
            ⟨result, some target.layoutId⟩
          recalls := self.recalls.erase target.layoutId
          completed := self.completed.insert ctx.operationId
            ⟨ctx, target.data, .«recall» target.archive, result⟩ } := by
  unfold publish
  simp only [HsmResult.bind_eq_ok, HsmResult.okOr_eq_ok, HsmResult.pure_eq_ok, finish_eq_ok]
  constructor
  · rintro ⟨e, he, next, ⟨ha, rfl⟩, hr⟩
    cases hr
    exact ⟨e, he, ha, rfl, rfl⟩
  · rintro ⟨e, he, ha, rfl, rfl⟩
    exact ⟨e, he, _, ⟨ha, rfl⟩, rfl⟩

end State

theorem yields_withTransferLock {A : (o : FsOp (FileName κ) (Content κ)) → o.Ans → Prop} {d : Dir}
    {body : Io κ α} {a : α} (h : (withTransferLock d body).run.Yields A (.ok a)) :
    body.run.Yields A (.ok a) := by
  unfold withTransferLock at h
  simp only [Prog.yields_bind_ok, Prog.run_mk, Prog.yields_bind, Prog.yields_op,
    Prog.yields_ret] at h
  obtain ⟨-, -, -, -, r, hr, -, -, rfl⟩ := h
  exact hr

theorem yields_uuid {P : String → Prop} {u : String} :
    (uuid : Io κ String).run.Yields (Names P) (.ok u) ↔ P u := by
  simp [uuid, ask, Names]

theorem yields_newLayout {P : String → Prop} {d : Dir} {u : String}
    (h : (newLayout d : Io κ String).run.Yields (Names P) (.ok u)) : P u := by
  unfold newLayout at h
  simp only [Prog.yields_bind_ok, Prog.yields_pure_ok] at h
  obtain ⟨v, hv, -, -, -, -, rfl⟩ := h
  exact yields_uuid.mp hv

section

variable [Crates] {root : Dir} {fresh : String → Prop} {st next : State κ} {ctx : OperationContext}

/-- A protected step that succeeds: its request, the value it returns and the metadata it
leaves; `fresh` are the names it may be given. -/
inductive Effect (root : Dir) (fresh : String → Prop) (st : State κ) (ctx : OperationContext) :
    StepRequest → StepValue → State κ → Prop where
  | prepareArchive {view : DataView} {e : Entity} {layout : String} :
      st.entity view.data = .ok e → e.published = some layout → fresh view.viewId →
      ¬ st.views.Any (fun v => v.view.data = view.data) →
      view.length = e.public.length → view.digest = e.public.digest →
      view.source = endpoint (layoutDir root layout) →
      Effect root fresh st ctx (.prepareArchive view.data) (.view view)
        { st with views := st.views.insert view.viewId ⟨ctx, view⟩ }
  | commitArchive {view : DataView} {receipt : ArchiveReceipt} {e : Entity} :
      st.views.lookup view.viewId = some ⟨ctx, view⟩ →
      st.entity view.data = .ok e → receipt.Binds view →
      (∀ a ∈ e.public.anchors, a.key = receipt.key → a = receipt) →
      st.Admits ctx view.data (.archive receipt.key) →
      Effect root fresh st ctx (.commitArchive view receipt) (.state (e.public.attached receipt))
        { st with
          entities := st.entities.insert view.data.entity.entity
            { e with «public» := e.public.attached receipt }
          views := st.views.erase view.viewId
          completed := st.completed.insert ctx.operationId
            ⟨ctx, view.data, .archive receipt.key, e.public.attached receipt⟩ }
  | release {e : Entity} {layout : String} :
      st.entity e.public.data = .ok e → e.public.anchors ≠ [] →
      ¬ st.views.Any (fun v => v.view.data = e.public.data) →
      ¬ st.recalls.Any (fun r => r.target.data = e.public.data) →
      e.published = some layout → st.Admits ctx e.public.data .release →
      Effect root fresh st ctx (.release e.public) (.state e.public.released)
        { st with
          entities := st.entities.insert e.public.data.entity.entity ⟨e.public.released, none⟩
          gc := st.gc ++ [layout]
          completed := st.completed.insert ctx.operationId
            ⟨ctx, e.public.data, .release, e.public.released⟩ }
  | prepareRecall {e : Entity} {anchor : ArchiveReceipt} {layout : String} :
      st.entity e.public.data = .ok e → e.published = none → anchor ∈ e.public.anchors →
      fresh layout → ¬ st.recalls.Any (fun r => r.target.data = e.public.data) →
      Effect root fresh st ctx (.prepareRecall e.public anchor)
        (.target ⟨e.public.data, layout, anchor.key, endpoint (layoutDir root layout)⟩)
        { st with
          recalls := st.recalls.insert layout
            ⟨ctx, ⟨e.public.data, layout, anchor.key, endpoint (layoutDir root layout)⟩, anchor⟩ }
  | commitRecall {target : RecallTarget} {anchor : ArchiveReceipt} {e : Entity} :
      st.recalls.lookup target.layoutId = some ⟨ctx, target, anchor⟩ →
      st.entity target.data = .ok e → e.published = none → anchor ∈ e.public.anchors →
      st.Admits ctx target.data (.«recall» target.archive) →
      Effect root fresh st ctx
        (.commitRecall target ⟨e.public.length, e.public.digest⟩) (.state e.public.recalled)
        { st with
          entities := st.entities.insert target.data.entity.entity
            ⟨e.public.recalled, some target.layoutId⟩
          recalls := st.recalls.erase target.layoutId
          completed := st.completed.insert ctx.operationId
            ⟨ctx, target.data, .«recall» target.archive, e.public.recalled⟩ }

open LocalStorage

theorem prepareArchiveEffect_yields {data : DataKey} {view : DataView}
    (h : (prepareArchiveEffect root ctx data st).run.Yields (Names fresh) (.ok (view, next))) :
    Effect root fresh st ctx (.prepareArchive data) (.view view) next := by
  unfold prepareArchiveEffect at h
  simp only [Prog.yields_bind_ok, Prog.yields_liftM_ok, Prog.yields_guard_ok,
    Prog.yields_pure_ok, HsmResult.okOr_eq_ok] at h
  obtain ⟨e, he, layout, hl, hp, viewId, hu, hr⟩ := h
  cases hr
  exact @Effect.prepareArchive _ _ _ _ _ _ ⟨data, viewId, _, _, _⟩ e layout he hl
    (yields_uuid.mp hu) hp rfl rfl rfl

theorem commitArchiveEffect_yields {view : DataView} {receipt : ArchiveReceipt}
    {result : EntityState}
    (h : (commitArchiveEffect ctx view receipt st).run.Yields (Names fresh) (.ok (result, next))) :
    Effect root fresh st ctx (.commitArchive view receipt) (.state result) next := by
  unfold commitArchiveEffect at h
  simp only [Prog.yields_bind_ok, Prog.yields_liftM_ok, Prog.yields_guard_ok, not_or, not_not,
    ne_eq, HsmResult.okOr_eq_ok] at h
  obtain ⟨⟨c, v⟩, ho, ⟨rfl, rfl⟩, source, -, hb⟩ := h
  have hb := yields_withTransferLock hb
  simp only [Prog.yields_liftM_ok, State.attachAnchor_eq_ok] at hb
  obtain ⟨e, he, hr, hs, ha, rfl, rfl⟩ := hb
  exact .commitArchive ho he hr hs ha

theorem releaseEffect_yields {expected result : EntityState}
    (h : (releaseEffect root ctx expected st).run.Yields (Names fresh) (.ok (result, next))) :
    Effect root fresh st ctx (.release expected) (.state result) next := by
  unfold releaseEffect at h
  simp only [Prog.yields_bind_ok, Prog.yields_liftM_ok, State.releasable_eq_ok] at h
  obtain ⟨layout, ⟨e, he, rfl, hn, hv, hr, hl⟩, hb⟩ := h
  have hb := yields_withTransferLock hb
  simp only [Prog.yields_liftM_ok, State.detach_eq_ok] at hb
  obtain ⟨e', he', ha, rfl, rfl⟩ := hb
  obtain rfl : e = e' := by
    rw [(State.entity_eq_ok.mp he).2.1] at he'
    exact Option.some.inj he'
  exact .release he hn hv hr hl ha

theorem prepareRecallEffect_yields {expected : EntityState} {anchor : ArchiveReceipt}
    {target : RecallTarget}
    (h : (prepareRecallEffect root ctx expected anchor st).run.Yields (Names fresh)
      (.ok (target, next))) :
    Effect root fresh st ctx (.prepareRecall expected anchor) (.target target) next := by
  unfold prepareRecallEffect at h
  simp only [Prog.yields_bind_ok, Prog.yields_liftM_ok, Prog.yields_pure_ok] at h
  obtain ⟨u, hu, layout, hl, hn⟩ := h
  obtain ⟨e, he, rfl, hp, hm, hr⟩ := State.recallable_eq_ok.mp hu
  cases hn
  exact .prepareRecall he hp hm (yields_newLayout hl) hr

theorem commitRecallEffect_yields {target : RecallTarget} {evidence : TransferEvidence}
    {result : EntityState}
    (h : (commitRecallEffect root ctx target evidence st).run.Yields (Names fresh)
      (.ok (result, next))) :
    Effect root fresh st ctx (.commitRecall target evidence) (.state result) next := by
  unfold commitRecallEffect at h
  simp only [Prog.yields_bind_ok, Prog.yields_liftM_ok, Prog.yields_guard_ok, not_or, not_not,
    ne_eq, HsmResult.okOr_eq_ok] at h
  obtain ⟨⟨c, t, anchor⟩, ho, ⟨rfl, rfl⟩, destination, -, -, hb⟩ := h
  have hb := yields_withTransferLock hb
  simp only [Prog.yields_bind_ok, Prog.yields_liftM_ok, State.publish_eq_ok] at hb
  obtain ⟨⟨length, digest⟩, -, u, hu, -, -, -, -, -, -, e', he', ha, rfl, rfl⟩ := hb
  obtain ⟨e, he, hp, hm, rfl, rfl, rfl⟩ := State.sealable_eq_ok.mp hu
  obtain rfl : e = e' := by
    rw [(State.entity_eq_ok.mp he).2.1] at he'
    exact Option.some.inj he'
  exact .commitRecall ho he hp hm ha

theorem Effect.mono {fresh' : String → Prop} {request : StepRequest} {value : StepValue}
    (h : Effect root fresh st ctx request value next) (hf : ∀ u, fresh u → fresh' u) :
    Effect root fresh' st ctx request value next := by
  cases h with
  | prepareArchive he hl hu hv hn hg hs => exact .prepareArchive he hl (hf _ hu) hv hn hg hs
  | commitArchive ho he hb hs ha => exact .commitArchive ho he hb hs ha
  | release he hn hv hr hl ha => exact .release he hn hv hr hl ha
  | prepareRecall he hp hm hu hr => exact .prepareRecall he hp hm (hf _ hu) hr
  | commitRecall ho he hp hm ha => exact .commitRecall ho he hp hm ha

end

end HsmRs
