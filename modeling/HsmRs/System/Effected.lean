import HsmRs.System.Standing
import HsmRs.System.Trying

/-! # The one effect of a call

An engine call protects and changes no content but its own, and however often it is begun
again it changes that once: its operation is completed with the next revision of the entity,
and no other operation is.
-/

namespace HsmRs

variable {κ : Type} [DecidableEq κ] [KeyHash κ] [Crates] {root : Dir} {fresh : String → Prop}
  {st next base : State κ} {ctx : OperationContext} {data : DataKey} {e : Entity}
  {c : EngineCall}

/-- The operation has had no effect on the entity yet, or its one effect. -/
structure State.Effected (root : Dir) (ctx : OperationContext) (data : DataKey) (e : Entity)
    (st base : State κ) : Prop where
  orderly : st.Orderly root
  views : ∀ v o, st.views.lookup v = some o →
    o.context.operationId = ctx.operationId → o.view.data = data
  recalls : ∀ l o, st.recalls.lookup l = some o →
    o.context.operationId = ctx.operationId → o.target.data = data
  others : ∀ op, op ≠ ctx.operationId → st.completed.lookup op = base.completed.lookup op
  outcome : st.completed.lookup ctx.operationId = none ∧ st.entity data = .ok e ∨
    ∃ e' action, st.completed.lookup ctx.operationId = some ⟨ctx, data, action, e'.public⟩ ∧
      st.entity data = .ok e' ∧ e'.public.revision = e.public.revision + 1

/-- A step of the operation itself, on its own content. -/
inductive StepRequest.Concerns (data : DataKey) : StepRequest → Prop
  | prepareArchive : Concerns data (.prepareArchive data)
  | commitArchive {view : DataView} {receipt : ArchiveReceipt} :
      Concerns data (.commitArchive view receipt)
  | release {expected : EntityState} : expected.data = data → Concerns data (.release expected)
  | prepareRecall {expected : EntityState} {anchor : ArchiveReceipt} : expected.data = data →
      Concerns data (.prepareRecall expected anchor)
  | commitRecall {target : RecallTarget} {evidence : TransferEvidence} :
      Concerns data (.commitRecall target evidence)

omit [DecidableEq κ] [KeyHash κ] [Crates] in
theorem EngineCall.Requests.concerns {request : Request} (h : c.Requests request) :
    ∃ step, request = .step c.context step ∧ step.Concerns c.data := by
  cases c with
  | archive ctx data key =>
    rcases h with rfl | ⟨view, receipt, rfl⟩
    · exact ⟨_, rfl, .prepareArchive⟩
    · exact ⟨_, rfl, .commitArchive⟩
  | release ctx expected =>
    obtain rfl := h
    exact ⟨_, rfl, .release rfl⟩
  | «recall» ctx expected key =>
    rcases h with ⟨anchor, rfl⟩ | ⟨target, evidence, rfl⟩
    · exact ⟨_, rfl, .prepareRecall rfl⟩
    · exact ⟨_, rfl, .commitRecall⟩

namespace State.Effected

omit [KeyHash κ] [DecidableEq κ] [Crates] in
theorem entity_same (hi : next.storageId = st.storageId) (hn : next.namespace = st.namespace)
    (he : next.entities = st.entities) {e : Entity} (h : st.entity data = .ok e) :
    next.entity data = .ok e := by
  obtain ⟨⟨h₁, h₂, h₃⟩, hl, hd⟩ := State.entity_eq_ok.mp h
  exact State.entity_eq_ok.mpr ⟨⟨h₁.trans hi.symm, h₂.trans hn.symm, h₃⟩, he ▸ hl, hd⟩

/-- The effect of a step is on the content that the step concerns. -/
theorem owns {step : StepRequest} {value : StepValue} (h : st.Effected root ctx data e base)
    (concerns : step.Concerns data) (he : Effect root fresh st ctx step value next) :
    next.completed = st.completed ∧ next.entities = st.entities ∨
    ∃ e₀ e' action, st.entity data = .ok e₀ ∧ st.Admits ctx data action ∧
      step.name = action.step ∧ e'.public.data = data ∧
      e'.public.revision = e₀.public.revision + 1 ∧
      next.entities = st.entities.insert data.entity.entity e' ∧
      next.completed = st.completed.insert ctx.operationId ⟨ctx, data, action, e'.public⟩ := by
  cases he with
  | prepareArchive => exact .inl ⟨rfl, rfl⟩
  | @commitArchive view receipt e₀ hv he _ _ ha =>
    obtain rfl := h.views _ _ hv rfl
    obtain ⟨-, -, hd⟩ := State.entity_eq_ok.mp he
    exact .inr ⟨e₀, { e₀ with «public» := e₀.public.attached receipt }, _, he, ha, rfl, hd, rfl,
      rfl, rfl⟩
  | @release e₀ layout he _ _ _ _ ha =>
    cases concerns with
    | release hd =>
      subst hd
      exact .inr ⟨e₀, ⟨e₀.public.released, none⟩, _, he, ha, rfl, rfl, rfl, rfl, rfl⟩
  | prepareRecall => exact .inl ⟨rfl, rfl⟩
  | @commitRecall target anchor e₀ hr he _ _ ha =>
    obtain rfl := h.recalls _ _ hr rfl
    obtain ⟨-, -, hd⟩ := State.entity_eq_ok.mp he
    exact .inr ⟨e₀, ⟨e₀.public.recalled, some target.layoutId⟩, _, he, ha, rfl, hd, rfl, rfl,
      rfl⟩

theorem effect {step : StepRequest} {value : StepValue} {fingerprint : κ}
    (h : st.Effected root ctx data e base) (concerns : step.Concerns data)
    (orderly : State.Orderly root
      (next.record (key (.step ctx step.name)) ⟨fingerprint, .ok value⟩))
    (hk : st.steps.lookup (key (.step ctx step.name)) = none)
    (he : Effect root fresh st ctx step value next) :
    State.Effected root ctx data e
      (next.record (key (.step ctx step.name)) ⟨fingerprint, .ok value⟩) base := by
  have same : next.storageId = st.storageId ∧ next.namespace = st.namespace := by
    cases he <;> exact ⟨rfl, rfl⟩
  refine ⟨orderly, ?_, ?_, ?_, ?_⟩
  · cases he with
    | prepareArchive =>
      cases concerns
      intro v o ho hc
      simp only [State.record, Table.lookup_insert] at ho
      split at ho
      · cases ho
        rfl
      · exact h.views v o ho hc
    | commitArchive =>
      intro v o ho hc
      simp only [State.record, Table.lookup_erase] at ho
      split at ho
      · cases ho
      · exact h.views v o ho hc
    | release => exact h.views
    | prepareRecall => exact h.views
    | commitRecall => exact h.views
  · cases he with
    | prepareRecall =>
      cases concerns with
      | prepareRecall hd =>
        intro l o ho hc
        simp only [State.record, Table.lookup_insert] at ho
        split at ho
        · cases ho
          exact hd
        · exact h.recalls l o ho hc
    | commitRecall =>
      intro l o ho hc
      simp only [State.record, Table.lookup_erase] at ho
      split at ho
      · cases ho
      · exact h.recalls l o ho hc
    | prepareArchive => exact h.recalls
    | commitArchive => exact h.recalls
    | release => exact h.recalls
  · intro op hop
    rcases h.owns concerns he with ⟨hc, -⟩ | ⟨-, e', action, -, -, -, -, -, -, hc⟩
    · exact (congrArg (·.lookup op) hc).trans (h.others op hop)
    · show next.completed.lookup op = _
      rw [hc, Table.lookup_insert, if_neg hop]
      exact h.others op hop
  · rcases h.owns concerns he with ⟨hc, hent⟩ |
      ⟨e₀, e', action, h₀, admits, hname, hd, revision, hent, hc⟩
    · have entity : ∀ {x}, st.entity data = .ok x →
          State.entity (next.record (key (.step ctx step.name)) ⟨fingerprint, .ok value⟩) data =
            .ok x := fun hx => entity_same same.1 same.2 hent hx
      have completed : State.completed (next.record (key (.step ctx step.name))
          ⟨fingerprint, .ok value⟩) = st.completed := hc
      rcases h.outcome with ⟨hn, hx⟩ | ⟨e', action, hn, hx, hr⟩
      · exact .inl ⟨completed ▸ hn, entity hx⟩
      · exact .inr ⟨e', action, completed ▸ hn, entity hx, hr⟩
    · -- an operation that has had its effect has recorded the step, and would not run again
      have unused := h.orderly.historic.unused admits (hname ▸ hk)
      rcases h.outcome with ⟨-, hx⟩ | ⟨_, _, hn, -⟩
      · obtain rfl := Except.ok.inj (h₀.symm.trans hx)
        refine .inr ⟨e', action, ?_, State.entity_insert h₀ hd same.1 same.2 hent, revision⟩
        show next.completed.lookup _ = _
        rw [hc, Table.lookup_insert, if_pos rfl]
      · rw [unused] at hn
        cases hn

/-- No request of the call adds a second effect. -/
theorem keeps : c.Keeps root fun st => st.Effected root c.context c.data e base := by
  intro fresh st request answer next hq h hs
  obtain ⟨step, rfl, concerns⟩ := hq.concerns
  have orderly := State.Orderly.closed _ _ _ _ _ h.orderly hs
  cases hs with
  | failed => exact ⟨orderly, h.views, h.recalls, h.others, h.outcome⟩
  | done _ hk he => exact h.effect concerns orderly hk he

/-- Before a new operation there is no effect of it. -/
theorem of_unused (orderly : st.Orderly root) (current : st.entity data = .ok e)
    (unused : st.Unused ctx.operationId) : st.Effected root ctx data e st where
  orderly := orderly
  views v o ho hc := (orderly.accounted.view v o ho (unused.steps _ _ hc)).elim
  recalls l o ho hc := (orderly.accounted.recall l o ho (unused.steps _ _ hc)).elim
  others _ _ := rfl
  outcome := .inl ⟨unused.completed, current⟩

end State.Effected

end HsmRs
