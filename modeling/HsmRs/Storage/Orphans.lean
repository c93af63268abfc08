import HsmRs.Local.Trial
import HsmRs.Storage.History
import HsmRs.Storage.Holding

/-! # Protections and their owners

A pinned view and a private layout go away with the commit of the operation that owns them,
and only with it. A commit is tried once: its failure is recorded under its step, and an
operation ID completes one action. Calls that respect this orphan no protection.
-/

namespace HsmRs

open LocalStorage

variable {κ : Type} [DecidableEq κ] [KeyHash κ] {root : Dir} {st next : State κ}
  {ctx : OperationContext} {s s' : Disk (FileName κ) (Content κ)}

namespace State

/-- The commit of the operation has not been tried, and its ID has not completed. -/
structure Pending (st : State κ) (ctx : OperationContext) (commit : StepName) : Prop where
  untried : st.steps.lookup (key (.step ctx commit)) = none
  incomplete : st.completed.lookup ctx.operationId = none

/-- The operation can still commit what it protects of the content. -/
structure Committable (st : State κ) (ctx : OperationContext) (data : DataKey)
    (commit : StepName) : Prop where
  qualified : qualify ctx = .ok ()
  owned : st.Owns data.entity
  pending : st.Pending ctx commit

/-- The operation has pinned a view. -/
def Pinning (st : State κ) (ctx : OperationContext) : Prop :=
  ∃ v o, st.views.lookup v = some o ∧ o.context = ctx

/-- The operation fills a private layout. -/
def Filling (st : State κ) (ctx : OperationContext) : Prop :=
  ∃ l o, st.recalls.lookup l = some o ∧ o.context = ctx

/-- Every protection can still be committed by its owner, which has no other one of the kind. -/
structure Tended (st : State κ) : Prop where
  view : ∀ v o, st.views.lookup v = some o → qualify o.context = .ok () ∧
    st.Owns o.view.data.entity ∧ st.Pending o.context .commitArchive ∧
    st.steps.lookup (key (.step o.context .prepareArchive)) ≠ none
  «recall» : ∀ l o, st.recalls.lookup l = some o → qualify o.context = .ok () ∧
    st.Owns o.target.data.entity ∧ st.Pending o.context .commitRecall ∧
    st.steps.lookup (key (.step o.context .prepareRecall)) ≠ none
  oneView : ∀ v v' o o', st.views.lookup v = some o → st.views.lookup v' = some o' →
    o.context = o'.context → v = v'
  oneRecall : ∀ l l' o o', st.recalls.lookup l = some o → st.recalls.lookup l' = some o' →
    o.context = o'.context → l = l'

/-- The call pins for an operation that can commit, completes no operation that protects
something else, and a commit that is tried by the owner of a protection is the right one. -/
def Heeds [Crates] (root : Dir) (st : State κ) (s : Disk (FileName κ) (Content κ))
    (ctx : OperationContext) : StepRequest → Prop
  | .prepareArchive data =>
      (∃ e layout, st.entity data = .ok e ∧ e.published = some layout) →
      ¬ st.views.Any (fun v => v.view.data = data) → st.Pending ctx .commitArchive
  | .prepareRecall expected anchor =>
      st.recallable expected anchor = .ok () → st.Pending ctx .commitRecall
  | .release expected => ∀ layout, st.releasable expected = .ok layout →
      s.locked (layoutDir root layout) .transferLock = false → ¬ st.Pinning ctx ∧ ¬ st.Filling ctx
  | .commitArchive view receipt => st.Pinning ctx → ¬ st.Filling ctx ∧
      st.views.lookup view.viewId = some ⟨ctx, view⟩ ∧ receipt.Binds view ∧
      (∀ e, st.entity view.data = .ok e → ∀ a ∈ e.public.anchors,
        a.key = receipt.key → a = receipt) ∧
      ∀ e, decodeEndpoint view.source = .ok e → s.locked e.root .transferLock = false
  | .commitRecall target evidence => st.Filling ctx → ¬ st.Pinning ctx ∧
      (∃ anchor, st.recalls.lookup target.layoutId = some ⟨ctx, target, anchor⟩) ∧
      s.locked (layoutDir root target.layoutId) .transferLock = false ∧
      ∀ e b, st.entity target.data = .ok e → s.Holds (layoutDir root target.layoutId) b →
        evidence = ⟨b.length, digestOf b⟩ ∧ b.length = e.public.length ∧
          digestOf b = e.public.digest

end State

/-! ## What a heeding step leaves -/

omit [DecidableEq κ] [KeyHash κ] in
theorem qualified_eq {ctx ctx' : OperationContext} (h : qualify ctx = .ok ())
    (h' : qualify ctx' = .ok ())
    (ho : ctx.operationId = ctx'.operationId) : ctx = ctx' := by
  have epochs : ∀ {ctx : OperationContext}, qualify ctx = .ok () →
      ctx.controllerEpoch = 1 ∧ ctx.attemptEpoch = 1 := by
    intro ctx h
    unfold qualify at h
    simp only [HsmResult.bind_eq_ok, HsmResult.check_eq_ok, not_or, not_not] at h
    obtain ⟨-, -, epochs⟩ := h
    exact epochs
  obtain ⟨id, c, a⟩ := ctx
  obtain ⟨id', c', a'⟩ := ctx'
  obtain ⟨rfl, rfl⟩ := epochs h
  obtain ⟨rfl, rfl⟩ := epochs h'
  cases ho
  rfl

section

variable (inj : Function.Injective (key : Keyed → κ))
include inj

theorem lookup_record {name name' : StepName} {saved : SavedStep κ} {ctx' : OperationContext}
    (hn : ¬ (ctx' = ctx ∧ name' = name)) :
    (st.record (key (.step ctx name)) saved).steps.lookup (key (.step ctx' name')) =
      st.steps.lookup (key (.step ctx' name')) := by
  rw [State.record, Table.lookup_insert, if_neg]
  intro he
  have := inj he
  simp only [Keyed.step.injEq] at this
  exact hn this

omit inj [KeyHash κ] in
theorem lookup_record_ne_none {k k' : κ} {saved : SavedStep κ} (h : st.steps.lookup k ≠ none) :
    (st.record k' saved).steps.lookup k ≠ none := by
  rw [State.record, Table.lookup_insert]
  split
  · simp
  · exact h

namespace State.Tended

omit inj in
theorem same (h : st.Tended) (id : next.storageId = st.storageId)
    (ns : next.namespace = st.namespace)
    (views : next.views = st.views) (recalls : next.recalls = st.recalls)
    (steps : next.steps = st.steps) (completed : next.completed = st.completed) : next.Tended := by
  have owns : ∀ {entity}, st.Owns entity → next.Owns entity := fun ho =>
    ⟨ho.1.trans id.symm, ho.2.1.trans ns.symm, ho.2.2⟩
  have pending : ∀ {ctx commit}, st.Pending ctx commit → next.Pending ctx commit := fun hp =>
    ⟨steps ▸ hp.untried, completed ▸ hp.incomplete⟩
  refine ⟨fun v o ho => ?_, fun l o ho => ?_, views ▸ h.oneView, recalls ▸ h.oneRecall⟩
  · obtain ⟨hq, hw, hp, hs⟩ := h.view v o (views ▸ ho)
    exact ⟨hq, owns hw, pending hp, steps ▸ hs⟩
  · obtain ⟨hq, hw, hp, hs⟩ := h.recall l o (recalls ▸ ho)
    exact ⟨hq, owns hw, pending hp, steps ▸ hs⟩

theorem record (h : st.Tended) {name : StepName} {saved : SavedStep κ}
    (views : name = .commitArchive → ¬ st.Pinning ctx)
    (recalls : name = .commitRecall → ¬ st.Filling ctx) :
    (st.record (key (.step ctx name)) saved).Tended := by
  refine ⟨fun v o ho => ?_, fun l o ho => ?_, h.oneView, h.oneRecall⟩
  · obtain ⟨hq, hw, hp, hs⟩ := h.view v o ho
    refine ⟨hq, hw, ⟨?_, hp.incomplete⟩, lookup_record_ne_none hs⟩
    rw [lookup_record inj fun he => views he.2.symm ⟨v, o, ho, he.1⟩]
    exact hp.untried
  · obtain ⟨hq, hw, hp, hs⟩ := h.recall l o ho
    refine ⟨hq, hw, ⟨?_, hp.incomplete⟩, lookup_record_ne_none hs⟩
    rw [lookup_record inj fun he => recalls he.2.symm ⟨l, o, ho, he.1⟩]
    exact hp.untried

theorem completes (h : st.Tended) (hq : qualify ctx = .ok ()) {name : StepName}
    {saved : SavedStep κ}
    {c : Completed} (id : next.storageId = st.storageId) (ns : next.namespace = st.namespace)
    (steps : next.steps = st.steps)
    (completed : next.completed = st.completed.insert ctx.operationId c)
    (views : ∀ v o, next.views.lookup v = some o → st.views.lookup v = some o ∧ o.context ≠ ctx)
    (recalls : ∀ l o, next.recalls.lookup l = some o → st.recalls.lookup l = some o ∧
      o.context ≠ ctx) :
    (next.record (key (.step ctx name)) saved).Tended := by
  have owns : ∀ {entity}, st.Owns entity → next.Owns entity := fun ho =>
    ⟨ho.1.trans id.symm, ho.2.1.trans ns.symm, ho.2.2⟩
  have pending : ∀ {ctx' commit}, st.Pending ctx' commit → qualify ctx' = .ok () → ctx' ≠ ctx →
      State.Pending (next.record (key (.step ctx name)) saved) ctx' commit := by
    intro ctx' commit hp hq' hn
    refine ⟨?_, ?_⟩
    · rw [lookup_record inj fun he => hn he.1, steps]
      exact hp.untried
    · show next.completed.lookup _ = _
      rw [completed, Table.lookup_insert, if_neg fun he => hn (qualified_eq hq' hq he)]
      exact hp.incomplete
  refine ⟨fun v o ho => ?_, fun l o ho => ?_, fun v v' o o' ho ho' =>
    ?_, fun l l' o o' ho ho' => ?_⟩
  · obtain ⟨ho, hn⟩ := views v o ho
    obtain ⟨hq', hw, hp, hs⟩ := h.view v o ho
    exact ⟨hq', owns hw, pending hp hq' hn, lookup_record_ne_none (steps ▸ hs)⟩
  · obtain ⟨ho, hn⟩ := recalls l o ho
    obtain ⟨hq', hw, hp, hs⟩ := h.recall l o ho
    exact ⟨hq', owns hw, pending hp hq' hn, lookup_record_ne_none (steps ▸ hs)⟩
  · exact h.oneView v v' o o' (views v o ho).1 (views v' o' ho').1
  · exact h.oneRecall l l' o o' (recalls l o ho).1 (recalls l' o' ho').1

theorem pinned (h : st.Tended) (hq : qualify ctx = .ok ()) {view : DataView} {saved : SavedStep κ}
    (hn : st.steps.lookup (key (.step ctx .prepareArchive)) = none)
    (hp : st.Pending ctx .commitArchive) (hw : st.Owns view.data.entity) :
    State.Tended (State.record { st with views := st.views.insert view.viewId ⟨ctx, view⟩ }
      (key (.step ctx .prepareArchive)) saved) := by
  have other : ∀ v o, st.views.lookup v = some o → o.context ≠ ctx := by
    rintro v o ho rfl
    exact (h.view v o ho).2.2.2 hn
  have pending : ∀ {ctx' commit}, commit ≠ .prepareArchive → st.Pending ctx' commit →
      State.Pending (State.record { st with views := st.views.insert view.viewId ⟨ctx, view⟩ }
        (key (.step ctx .prepareArchive)) saved) ctx' commit := fun hne hp' =>
    ⟨(lookup_record inj fun he => hne he.2).trans hp'.untried, hp'.incomplete⟩
  refine ⟨fun v o ho => ?_, fun l o ho => ?_, fun v v' o o' ho ho' hc => ?_, h.oneRecall⟩
  · simp only [State.record, Table.lookup_insert] at ho
    split at ho
    · cases ho
      exact ⟨hq, hw, pending (by simp) hp, by simp [State.record]⟩
    · obtain ⟨hq', hw', hp', hs⟩ := h.view v o ho
      exact ⟨hq', hw', pending (by simp) hp', lookup_record_ne_none hs⟩
  · obtain ⟨hq', hw', hp', hs⟩ := h.recall l o ho
    exact ⟨hq', hw', pending (by simp) hp', lookup_record_ne_none hs⟩
  · simp only [State.record, Table.lookup_insert] at ho ho'
    split at ho <;> split at ho'
    · simp_all
    · cases ho
      exact (other v' o' ho' hc.symm).elim
    · cases ho'
      exact (other v o ho hc).elim
    · exact h.oneView v v' o o' ho ho' hc

theorem reserved (h : st.Tended) (hq : qualify ctx = .ok ()) (target : RecallTarget)
    {anchor : ArchiveReceipt} {saved : SavedStep κ}
    (hn : st.steps.lookup (key (.step ctx .prepareRecall)) = none)
    (hp : st.Pending ctx .commitRecall) (hw : st.Owns target.data.entity) :
    State.Tended (State.record
      { st with recalls := st.recalls.insert target.layoutId ⟨ctx, target, anchor⟩ }
      (key (.step ctx .prepareRecall)) saved) := by
  have other : ∀ l o, st.recalls.lookup l = some o → o.context ≠ ctx := by
    rintro l o ho rfl
    exact (h.recall l o ho).2.2.2 hn
  have pending : ∀ {ctx' commit}, commit ≠ .prepareRecall → st.Pending ctx' commit →
      State.Pending (State.record
        { st with recalls := st.recalls.insert target.layoutId ⟨ctx, target, anchor⟩ }
        (key (.step ctx .prepareRecall)) saved) ctx' commit := fun hne hp' =>
    ⟨(lookup_record inj fun he => hne he.2).trans hp'.untried, hp'.incomplete⟩
  refine ⟨fun v o ho => ?_, fun l o ho => ?_, h.oneView, fun l l' o o' ho ho' hc => ?_⟩
  · obtain ⟨hq', hw', hp', hs⟩ := h.view v o ho
    exact ⟨hq', hw', pending (by simp) hp', lookup_record_ne_none hs⟩
  · simp only [State.record, Table.lookup_insert] at ho
    split at ho
    · cases ho
      exact ⟨hq, hw, pending (by simp) hp, by simp [State.record]⟩
    · obtain ⟨hq', hw', hp', hs⟩ := h.recall l o ho
      exact ⟨hq', hw', pending (by simp) hp', lookup_record_ne_none hs⟩
  · simp only [State.record, Table.lookup_insert] at ho ho'
    split at ho <;> split at ho'
    · simp_all
    · cases ho
      exact (other l' o' ho' hc.symm).elim
    · cases ho'
      exact (other l o ho hc).elim
    · exact h.oneRecall l l' o o' ho ho' hc

end State.Tended

end

/-! ## The commits of owners -/

section

variable [Crates] {π : Policy (FileName κ) (Content κ)}

omit [KeyHash κ] [Crates] in
theorem withTransferLock_runs {α : Type} {d : Dir} {p : Io κ α} {a : α}
    (h : Runs (fsMachine π) (withTransferLock d p).run s (.ok a) s') :
    s.locked d .transferLock = false := by
  have hw : (withTransferLock d p).run.wp (fsMachine π) (fun _ => True)
      (fun r _ => ∀ a, r = .ok a → s.locked d .transferLock = false) s := by
    refine wp_withTransferLock trivial (fun _ _ _ => trivial) (fun _ _ _ => nofun)
      (fun _ _ _ _ => nofun) fun _ hl => ?_
    exact Prog.wp_of_runs (fun _ _ _ _ _ => hl) fun _ _ => trivial
  have := Prog.wp_sound_runs hw h
  exact this a rfl

omit [KeyHash κ] in
/-- The right commit of a pinned view fails for no reason that is recorded. -/
theorem commitArchive_definite {view : DataView} {receipt : ArchiveReceipt} {e : HsmError}
    {source : LocalEndpoint} (hπ : π.Smooth)
    (ho : st.views.lookup view.viewId = some ⟨ctx, view⟩)
    (ha : ∃ r, st.attachAnchor ctx view receipt = .ok r)
    (hd : decodeEndpoint view.source = .ok source)
    (hl : s.locked source.root .transferLock = false)
    (h : Runs (fsMachine π) (commitArchiveEffect ctx view receipt st).run s (.error e) s') :
    ¬ e.Definite := by
  have hw : (commitArchiveEffect ctx view receipt st).run.wp (fsMachine π) (fun _ => True)
      (fun r _ => ∀ e, r = .error e → ¬ e.Definite) s := by
    obtain ⟨r, ha⟩ := ha
    refine Prog.wp_check trivial (fun e he => ?_) fun owner hx => ?_
    · rw [ho] at he
      cases he
    obtain rfl : _ = owner := Option.some.inj (ho.symm.trans (HsmResult.okOr_eq_ok.mp hx))
    refine Prog.wp_guard trivial (fun hn => (hn.elim (fun h => h rfl) fun h => h rfl).elim)
      fun _ => ?_
    refine Prog.wp_check trivial (fun e he => ?_) fun source' hx => ?_
    · rw [hd] at he
      cases he
    obtain rfl : source = source' := Except.ok.inj (hd.symm.trans hx)
    refine wp_withTransferLock trivial (fun _ _ _ => trivial) ?_ ?_ fun _ _ => wp_liftM trivial ?_
    · rintro e he - _ ⟨⟩
      exact he
    · rintro m s' - (hn | hn)
      · exact (hn hπ).elim
      · rw [hl] at hn
        cases hn
    · rw [ha]
      exact nofun
  have := Prog.wp_sound_runs hw h
  exact this e rfl

omit [KeyHash κ] in
/-- The right commit of a private layout fails for no reason that is recorded. -/
theorem commitRecall_definite {target : RecallTarget} {evidence : TransferEvidence} {e : HsmError}
    {anchor : ArchiveReceipt} {source : LocalEndpoint} (hπ : π.Smooth)
    (ho : st.recalls.lookup target.layoutId = some ⟨ctx, target, anchor⟩)
    (hd : decodeEndpoint target.destination = .ok source)
    (hroot : source.root = layoutDir root target.layoutId)
    (hl : s.locked (layoutDir root target.layoutId) .transferLock = false)
    (hb : ∀ b, s.Holds (layoutDir root target.layoutId) b →
      st.sealable ⟨ctx, target, anchor⟩ target evidence b.length (digestOf b) = .ok ())
    (hp : ∃ r, st.publish ctx target = .ok r)
    (h : Runs (fsMachine π) (commitRecallEffect root ctx target evidence st).run s (.error e) s') :
    ¬ e.Definite := by
  have hw : (commitRecallEffect root ctx target evidence st).run.wp (fsMachine π) (fun _ => True)
      (fun r _ => ∀ e, r = .error e → ¬ e.Definite) s := by
    obtain ⟨r, hp⟩ := hp
    refine Prog.wp_check trivial (fun e he => ?_) fun owner hx => ?_
    · rw [ho] at he
      cases he
    obtain rfl : _ = owner := Option.some.inj (ho.symm.trans (HsmResult.okOr_eq_ok.mp hx))
    refine Prog.wp_guard trivial (fun hn => (hn.elim (fun h => h rfl) fun h => h rfl).elim)
      fun _ => ?_
    refine Prog.wp_check trivial (fun e he => ?_) fun source' hx => ?_
    · rw [hd] at he
      cases he
    obtain rfl : source = source' := Except.ok.inj (hd.symm.trans hx)
    refine Prog.wp_guard trivial (fun hn => (hn hroot).elim) fun _ => ?_
    have uncertain : ∀ {e : HsmError} {e'}, ¬ e.Definite →
        (.error e : HsmResult (EntityState × State κ)) = .error e' → ¬ e'.Definite := by
      rintro e _ he ⟨⟩
      exact he
    refine wp_withTransferLock trivial (fun _ _ _ => trivial) (fun e he _ _ => uncertain he) ?_ ?_
    · rintro m s' - (hn | hn)
      · exact (hn hπ).elim
      · rw [hl] at hn
        cases hn
    intro _ _
    apply Prog.wp_run_bind_of
    refine wp_digestFile trivial (fun b held => ?_) fun e he _ _ => uncertain he
    refine Prog.wp_check trivial (fun e he => ?_) fun _ _ => ?_
    · rw [hb b held] at he
      cases he
    apply Prog.wp_run_bind_of
    refine wp_syncFile (fun _ _ => trivial) (fun _ _ => ?_) fun e s' he _ _ _ => uncertain he
    apply Prog.wp_run_bind_of
    refine wp_syncDir (fun _ _ => trivial) (fun _ => ?_) fun e s' he _ _ _ => uncertain he
    apply Prog.wp_run_bind_of
    refine wp_writeJson id (fun _ _ => trivial) (fun s' _ _ _ => wp_liftM trivial ?_)
      fun e s' he _ _ _ => uncertain he
    rw [hp]
    exact nofun
  have := Prog.wp_sound_runs hw h
  exact this e rfl

omit [Crates] in
theorem State.Tended.committable_view (h : st.Tended) {v : String} {o : ViewOwner}
    (ho : st.views.lookup v = some o) :
    st.Committable o.context o.view.data .commitArchive :=
  ⟨(h.view v o ho).1, (h.view v o ho).2.1, (h.view v o ho).2.2.1⟩

omit [Crates] in
theorem State.Tended.committable_recall (h : st.Tended) {l : String} {o : RecallOwner}
    (ho : st.recalls.lookup l = some o) :
    st.Committable o.context o.target.data .commitRecall :=
  ⟨(h.recall l o ho).1, (h.recall l o ho).2.1, (h.recall l o ho).2.2.1⟩

theorem State.Committable.attachable {view : DataView} {receipt : ArchiveReceipt}
    (h : st.Committable ctx view.data .commitArchive) (hc : st.Coherent root)
    (ho : st.views.lookup view.viewId = some ⟨ctx, view⟩) (hb : receipt.Binds view)
    (hs : ∀ e, st.entity view.data = .ok e → ∀ a ∈ e.public.anchors,
      a.key = receipt.key → a = receipt) :
    (∃ r, st.attachAnchor ctx view receipt = .ok r) ∧
      ∃ e layout, decodeEndpoint view.source = .ok e ∧ e.root = layoutDir root layout := by
  obtain ⟨-, e, layout, hx, hd, -, hl, -, -⟩ := hc.view _ _ ho
  have he : st.entity view.data = .ok e := State.entity_eq_ok.mpr ⟨h.owned, hx, hd⟩
  refine ⟨⟨_, State.attachAnchor_eq_ok.mpr ⟨e, he, hb, hs e he, ?_, rfl, rfl⟩⟩, ?_⟩
  · intro old hold
    rw [h.pending.incomplete] at hold
    cases hold
  · exact ⟨_, layout, by rw [hl, decodeEndpoint_endpoint], rfl⟩

theorem State.Committable.publishable {target : RecallTarget} {anchor : ArchiveReceipt}
    (h : st.Committable ctx target.data .commitRecall) (hc : st.Coherent root)
    (ho : st.recalls.lookup target.layoutId = some ⟨ctx, target, anchor⟩) :
    (∃ r, st.publish ctx target = .ok r) ∧
    (∃ e, decodeEndpoint target.destination = .ok e ∧ e.root = layoutDir root target.layoutId) ∧
    ∃ e, st.entity target.data = .ok e ∧ ∀ b : Bytes, b.length = e.public.length →
      digestOf b = e.public.digest →
      st.sealable ⟨ctx, target, anchor⟩ target ⟨b.length, digestOf b⟩ b.length
        (digestOf b) = .ok () := by
  obtain ⟨-, e, hx, hd, hp, ha, -, hl⟩ := hc.recall _ _ ho
  have he : st.entity target.data = .ok e := State.entity_eq_ok.mpr ⟨h.owned, hx, hd⟩
  refine ⟨⟨_, State.publish_eq_ok.mpr ⟨e, hx, ?_, rfl, rfl⟩⟩, ?_, e, he, fun b hn hg => ?_⟩
  · intro old hold
    rw [h.pending.incomplete] at hold
    cases hold
  · exact ⟨_, by rw [hl, decodeEndpoint_endpoint], rfl⟩
  · exact State.sealable_eq_ok.mpr ⟨e, he, hp, ha, rfl, hn, hg⟩

/-! ## Heeding calls -/

variable {self : LocalStorage κ}

/-- A step that heeds the protections keeps them tended, wherever it is cut off. -/
theorem wp_heeding (inj : Function.Injective (key : Keyed → κ)) (hπ : π.Smooth)
    (hp : self.poisoned = false) (hs : s.Safe self.root .state (.state self.state))
    (h : self.state.Tended) (hc : self.state.Coherent self.root) {request : StepRequest}
    (heeds : qualify ctx = .ok () → self.state.steps.lookup (key (.step ctx request.name)) = none →
      self.state.Heeds self.root s ctx request) :
    (self.performStep ctx request).wp (fsMachine π) (Cells self.root State.Tended)
      (fun x s' => Holding self.root State.Tended s' (some x.2)) s := by
  have safe : ∀ {s'}, Frame Named s s' → s'.Safe self.root .state (.state self.state) :=
    fun hf => hs.frame hf id
  cases request with
  | prepareArchive data =>
    refine wp_step_holding hp hs h fun hq hn => Prog.wp_frame spares_prepareArchiveEffect
      (fun s' hf => safe hf) fun r s' hr hf => ⟨safe hf, ?_, fun e _ => h.record inj nofun nofun⟩
    rintro view next rfl
    cases prepareArchiveEffect_yields hr.yields with
    | prepareArchive he hl _ hv =>
      exact h.pinned inj hq hn (heeds hq hn ⟨_, _, he, hl⟩ hv) (State.entity_eq_ok.mp he).1
  | prepareRecall expected anchor =>
    refine wp_step_holding hp hs h fun hq hn => Prog.wp_frame spares_prepareRecallEffect
      (fun s' hf => safe hf) fun r s' hr hf => ⟨safe hf, ?_, fun e _ => h.record inj nofun nofun⟩
    rintro target next rfl
    cases prepareRecallEffect_yields hr.yields with
    | @prepareRecall e _ layout he hl ha _ hv =>
      exact h.reserved inj hq
        ⟨e.public.data, layout, anchor.key, endpoint (layoutDir self.root layout)⟩
        hn (heeds hq hn (State.recallable_eq_ok.mpr ⟨_, he, rfl, hl, ha, hv⟩))
          (State.entity_eq_ok.mp he).1
  | release expected =>
    refine wp_step_holding hp hs h fun hq hn => Prog.wp_frame spares_releaseEffect
      (fun s' hf => safe hf) fun r s' hr hf => ⟨safe hf, ?_, fun e _ => h.record inj nofun nofun⟩
    rintro result next rfl
    obtain ⟨layout, s₁, checked, locked⟩ := Runs.run_bind_ok.mp hr
    obtain ⟨releasable, rfl⟩ := Runs.ret_iff.mp checked
    obtain ⟨pinning, filling⟩ := heeds hq hn layout releasable.symm (withTransferLock_runs locked)
    cases releaseEffect_yields hr.yields with
    | release =>
      exact h.completes inj hq rfl rfl rfl rfl
        (fun v o ho => ⟨ho, fun he => pinning ⟨v, o, ho, he⟩⟩)
        fun l o ho => ⟨ho, fun he => filling ⟨l, o, ho, he⟩⟩
  | commitArchive view receipt =>
    refine wp_step_holding hp hs h fun hq hn => Prog.wp_frame spares_commitArchiveEffect
      (fun s' hf => safe hf) fun r s' hr hf => ⟨safe hf, ?_, ?_⟩
    · rintro result next rfl
      have effect : Effect self.root _ self.state ctx (.commitArchive view receipt) (.state result)
        next := commitArchiveEffect_yields hr.yields
      cases effect with
      | commitArchive ho =>
        obtain ⟨filling, -⟩ := heeds hq hn ⟨_, _, ho, rfl⟩
        refine h.completes inj hq rfl rfl rfl rfl (fun v o hv => ?_)
          fun l o hl => ⟨hl, fun he => filling ⟨l, o, hl, he⟩⟩
        rw [Table.lookup_erase] at hv
        split at hv
        · cases hv
        · rename_i hne
          exact ⟨hv, fun he => hne (h.oneView _ _ _ _ hv ho he)⟩
    · rintro e rfl
      refine h.record inj (fun _ pinning => ?_) nofun
      obtain ⟨-, ho, hb, hs', hl⟩ := heeds hq hn pinning
      obtain ⟨attachable, source, layout, hd, -⟩ :=
        (h.committable_view ho).attachable hc ho hb hs'
      exact commitArchive_definite hπ ho attachable hd (hl source hd) hr e.intoError_definite
  | commitRecall target evidence =>
    refine wp_step_holding hp hs h fun hq hn => Prog.wp_runs (Prog.wp_mono (wp_publishing hs)
      (fun _ h => h.1) fun r s' hf _ hr => ⟨hf.1, ?_, ?_⟩)
    · rintro result next rfl
      cases commitRecallEffect_yields hr.yields with
      | commitRecall ho =>
        obtain ⟨pinning, -⟩ := heeds hq hn ⟨_, _, ho, rfl⟩
        refine h.completes inj hq rfl rfl rfl rfl
          (fun v o hv => ⟨hv, fun he => pinning ⟨v, o, hv, he⟩⟩) fun l o hl => ?_
        rw [Table.lookup_erase] at hl
        split at hl
        · cases hl
        · rename_i hne
          exact ⟨hl, fun he => hne (h.oneRecall _ _ _ _ hl ho he)⟩
    · rintro e rfl
      refine h.record inj nofun fun _ filling => ?_
      obtain ⟨-, ⟨anchor, ho⟩, hl, hb⟩ := heeds hq hn filling
      obtain ⟨published, ⟨source, hd, hroot⟩, e', he', sealable⟩ :=
        (h.committable_recall ho).publishable hc ho
      refine commitRecall_definite hπ ho hd hroot hl (fun b held => ?_) published
        hr e.intoError_definite
      obtain ⟨rfl, hn, hg⟩ := hb e' b he' held
      exact sealable b hn hg

/-- A call that is refused or replayed heeds everything. -/
def Request.Heeds (self : LocalStorage κ) (s : Disk (FileName κ) (Content κ)) : Request → Prop
  | .step ctx request => self.poisoned = false → qualify ctx = .ok () →
      self.state.steps.lookup (key (.step ctx request.name)) = none →
      self.state.Heeds self.root s ctx request
  | _ => True

namespace World

variable {w w' : World κ}

/-- The steps of a world whose calls heed the protections. -/
inductive Heeding (π : Policy (FileName κ) (Content κ)) (root : Dir) : World κ →
    World κ → Prop where
  | call {self self' : LocalStorage κ} {s s' : Disk (FileName κ) (Content κ)}
      {request : Request} {answer : HsmResult Reply} : request.Heeds self s →
      Runs (fsMachine π) (self.perform request) s (answer, self') s' →
      Heeding π root ⟨s, some self⟩ ⟨s', some self'⟩
  | crash {self : LocalStorage κ} {s s' s'' : Disk (FileName κ) (Content κ)} {request : Request} :
      request.Heeds self s → Cuts (fsMachine π) (self.perform request) s s' → Crash root s' s'' →
      Heeding π root ⟨s, some self⟩ ⟨s'', none⟩
  | opens {s : Disk (FileName κ) (Content κ)} {w : World κ} : Step π root ⟨s, none⟩ w →
      Heeding π root ⟨s, none⟩ w
  | outside {handle : Option (LocalStorage κ)} {s s' : Disk (FileName κ) (Content κ)} :
      Outside root s s' → Heeding π root ⟨s, handle⟩ ⟨s', handle⟩

/-- A world reached from a root without metadata by such steps. -/
def Heeded (π : Policy (FileName κ) (Content κ)) (root : Dir) (w : World κ) : Prop :=
  ∃ s, s.lookup root .state = none ∧ s.safeFile root .state = none ∧
    Relation.ReflTransGen (Heeding π root) ⟨s, none⟩ w

theorem Heeding.step (h : Heeding π root w w') : Step π root w w' := by
  cases h with
  | call _ hr => exact .call hr
  | crash _ hc hx => exact .crash hc hx
  | opens h => exact h
  | outside ho => exact .outside ho

theorem Heeded.reachable (h : Heeded π root w) : Reachable π root w := by
  obtain ⟨s, hl, hs, h⟩ := h
  exact ⟨s, hl, hs, Relation.ReflTransGen.mono (fun _ _ => Heeding.step) _ _ h⟩

omit [Crates] in
theorem tended_new {a b : String} : (State.new a b : State κ).Tended := by
  refine ⟨?_, ?_, ?_, ?_⟩ <;> intros <;> simp_all [State.new]

theorem Heeding.tended (inj : Function.Injective (key : Keyed → κ)) (hπ : π.Smooth)
    (h : Heeding π root w w') (coherent : w.Keeps π root fun i st =>
      st.Coherent root ∧ st.Allotted i)
    (hw : Holding root State.Tended w.disk w.handle) :
    Holding root State.Tended w'.disk w'.handle := by
  have other : ∀ {request answer} {st next : State κ} {fresh}, (∀ ctx r, request ≠ .step ctx r) →
      Settles root fresh st request answer (some next) → st.Tended → next.Tended := by
    intro request answer st next fresh hn hs ht
    cases hs with
    | imported => exact ht.same rfl rfl rfl rfl rfl rfl
    | collected => exact ht.same rfl rfl rfl rfl rfl rfl
    | _ => exact (hn _ _ rfl).elim
  cases h with
  | @call self self' s s' request answer heeds hr =>
    obtain rfl := hw.root_eq self rfl
    by_cases hd : self.poisoned = true
    · rw [perform_poisoned hd, Runs.ret_iff] at hr
      obtain ⟨hr, rfl⟩ := hr
      cases hr
      exact hw
    have hd : self.poisoned = false := by simpa using hd
    have same : (∀ ctx r, request ≠ .step ctx r) → Holding self.root State.Tended s' (some self') :=
      fun hn => (hw.call hr (fun _ _ _ ht => ht) (fun _ _ _ ht => ht)
        fun _ _ _ hs _ ht => other hn hs ht).1
    cases request with
    | step ctx request =>
      have := Prog.wp_sound_runs (wp_heeding inj hπ hd (hw.safe self rfl hd) (hw.cached self rfl)
        (coherent.cached self rfl).1 (heeds hd)) hr
      exact this
    | «import» => exact same nofun
    | collectGarbage => exact same nofun
  | @crash self s s' s'' request heeds hc hx =>
    obtain rfl := hw.root_eq self rfl
    refine .closed (hx.cells ?_)
    by_cases hd : self.poisoned = true
    · rw [perform_poisoned hd] at hc
      cases hc
      exact hw.cells
    have hd : self.poisoned = false := by simpa using hd
    have same : (∀ ctx r, request ≠ .step ctx r) → Cells self.root State.Tended s' :=
      fun hn =>
        (hw.cut hc (fun _ _ ht => ht) (fun _ _ ht => ht) fun _ _ hs _ ht => other hn hs ht).1
    cases request with
    | step ctx request =>
      exact Prog.wp_sound_cuts (wp_heeding inj hπ hd (hw.safe self rfl hd) (hw.cached self rfl)
        (coherent.cached self rfl).1 (heeds hd)) hc
    | «import» => exact same nofun
    | collectGarbage => exact same nofun
  | opens hs =>
    have opened := wp_open (π := π) hw.cells fun _ _ _ => tended_new
    cases hs with
    | opened hr =>
      obtain ⟨-, ho⟩ := Prog.wp_sound_runs opened hr
      obtain ⟨hroot, -, ht, safe⟩ := ho _ rfl
      exact .of_safe hroot safe ht
    | refused hr => exact .closed (Prog.wp_sound_runs opened hr).1.1
    | cut hc hx => exact .closed (hx.cells (Prog.wp_sound_cuts opened hc).1)
    | outside ho => exact .closed (ho.cells hw.cells)
  | outside ho =>
    exact ⟨ho.cells hw.cells, hw.root_eq, hw.cached, fun self hs hd =>
      ho.safe_of (hw.safe self hs hd)⟩

theorem Heeded.tended (inj : Function.Injective (key : Keyed → κ)) (hπ : π.Smooth)
    (h : Heeded π root w) : Holding root State.Tended w.disk w.handle := by
  obtain ⟨s, hl, hs, h⟩ := h
  induction h with
  | refl => exact .closed ⟨by rw [hl]; exact .none, by rw [hs]; exact .none⟩
  | tail h step ih =>
    exact step.tended inj hπ (Heeded.reachable ⟨s, hl, hs, h⟩).coherent ih

/-- Without faults no handle is ever poisoned. -/
theorem Heeded.healthy (inj : Function.Injective (key : Keyed → κ)) (hπ : π.Smooth)
    (h : Heeded π root w) : ∀ self, w.handle = some self → self.poisoned = false := by
  obtain ⟨s, hl, hs, h⟩ := h
  induction h with
  | refl => exact nofun
  | @tail w w' h step ih =>
    have hw := Heeded.tended inj hπ ⟨s, hl, hs, h⟩
    cases step with
    | call _ hr =>
      rintro _ ⟨⟩
      have hd := ih _ rfl
      have := Prog.wp_sound_runs (wp_perform_healthy hπ hd (hw.root_eq _ rfl ▸ hw.safe _ rfl hd)) hr
      exact this
    | crash => exact nofun
    | opens step =>
      cases step with
      | opened hr =>
        rintro _ ⟨⟩
        exact ((Prog.wp_sound_runs
          (wp_open (P := State.Tended) hw.cells fun _ _ _ => tended_new) hr).2
          _ rfl).2.1
      | refused => exact nofun
      | cut => exact nofun
      | outside => exact nofun
    | outside => exact ih

end World

/-! ## Protections end -/

/-- The call can be made, is answered well, and leaves such metadata, whatever names it is given. -/
def LocalStorage.Attains (π : Policy (FileName κ) (Content κ)) (self : LocalStorage κ)
    (s : Disk (FileName κ) (Content κ)) (request : Request) (gone : State κ → Prop) : Prop :=
  (∃ answer self' s', Runs (fsMachine π) (self.perform request) s (answer, self') s') ∧
    ∀ answer self' s', Runs (fsMachine π) (self.perform request) s (answer, self') s' →
      (∃ reply, answer = .ok reply) ∧ gone self'.state

omit [Crates] in
theorem exists_receipt (view : DataView) (anchors : List ArchiveReceipt) :
    ∃ receipt : ArchiveReceipt, receipt.Binds view ∧
      ∀ a ∈ anchors, a.key = receipt.key → a = receipt := by
  obtain ⟨object, ho⟩ := Infinite.exists_notMem_finset (anchors.map (·.key.object)).toFinset
  refine ⟨⟨⟨"", object⟩, view.data, view.length, view.digest, "r", "local-fsync-v1"⟩,
    ⟨rfl, rfl, rfl, by simp, rfl⟩, fun a ha he => (ho ?_).elim⟩
  exact List.mem_toFinset.mpr (List.mem_map.mpr ⟨a, ha, by rw [he]⟩)

theorem LocalStorage.Attains.mono {request : Request} {gone gone' : State κ → Prop}
    (h : self.Attains π s request gone) (hg : ∀ st, gone st → gone' st) :
    self.Attains π s request gone' :=
  ⟨h.1, fun answer self' s' hr => (h.2 answer self' s' hr).imp_right (hg _)⟩

namespace State.Committable

variable (hc : self.state.Coherent self.root) (hπ : π.Smooth) (offers : π.Offers)
  (roomy : s.Roomy) (hp : self.poisoned = false)
  (hs : s.Safe self.root .state (.state self.state))
include hc hπ offers roomy hp hs

/-- A pinned view can be given up while nobody reads its layout. -/
theorem ends_view {v : String} {o : ViewOwner}
    (h : self.state.Committable o.context o.view.data .commitArchive)
    (ho : self.state.views.lookup v = some o)
    (ready : ∀ e, decodeEndpoint o.view.source = .ok e →
      s.dir e.root = true ∧ s.locked e.root .transferLock = false) :
    ∃ receipt, self.Attains π s (.step o.context (.commitArchive o.view receipt)) fun st =>
      st.views = self.state.views.erase v ∧ st.recalls = self.state.recalls := by
  obtain ⟨ctx, view⟩ := o
  obtain ⟨rfl, e, -, hx, hd, -⟩ := hc.view _ _ ho
  obtain ⟨receipt, hb, hfree⟩ := exists_receipt view e.public.anchors
  have he : self.state.entity view.data = .ok e := State.entity_eq_ok.mpr ⟨h.owned, hx, hd⟩
  obtain ⟨attachable, source, layout, hsource, -⟩ := h.attachable hc ho hb fun e' he' => by
    obtain rfl := Except.ok.inj (he.symm.trans he')
    exact hfree
  obtain ⟨there, unlocked⟩ := ready source hsource
  have root : s.dir self.root = true := Disk.dir_of_lookup (n := .state) (by simp [hs.1])
  refine ⟨receipt, ?_, fun answer self' s' hr => ?_⟩
  · obtain ⟨⟨answer, self'⟩, s', hr⟩ := Prog.supplied_runs offers.supplies
      (self.perform (.step ctx (.commitArchive view receipt))) roomy
    exact ⟨answer, self', s', hr⟩
  have hw : (self.performStep ctx (.commitArchive view receipt)).wp (fsMachine π) (fun _ => True)
      (fun x _ => (∃ reply, x.1 = .ok reply) ∧
        x.2.state.views = self.state.views.erase view.viewId ∧
        x.2.state.recalls = self.state.recalls) s := by
    refine wp_replying (wp_step hp trivial (fun e he => ?_) (fun saved _ hl => ?_) fun _ _ => ?_)
    · rw [h.qualified] at he
      cases he
    · rw [show StepRequest.name _ = .commitArchive from rfl, h.pending.untried] at hl
      cases hl
    · refine wp_commitArchiveEffect (fun _ _ => trivial) (fun r s' _ ha hf _ => ?_)
        fun e s' _ hn => ?_
      · obtain ⟨_, -, -, -, -, -, next⟩ := State.attachAnchor_eq_ok.mp ha
        refine wp_adopt (fun _ _ => trivial)
          (fun s'' _ _ _ => ⟨⟨_, rfl⟩, by rw [next]; exact ⟨rfl, rfl⟩⟩) fun e s'' _ _ hn => ?_
        rw [hf.dir _ _ (id : ¬ (FileName.state : FileName κ).IsTemp) root] at hn
        exact (hn.elim (fun h => h hπ) (by simp)).elim
      · exact (hn ⟨hπ, ho, attachable, source, hsource, there, unlocked⟩).elim
  have := Prog.wp_sound_runs hw hr
  exact this

/-- A private layout that holds the content of its entity can be published. -/
theorem ends_recall {l : String} {o : RecallOwner}
    (h : self.state.Committable o.context o.target.data .commitRecall)
    (ho : self.state.recalls.lookup l = some o)
    {b : Bytes} (held : s.Holds (layoutDir self.root l) b)
    (right : ∀ e, self.state.entity o.target.data = .ok e →
      b.length = e.public.length ∧ digestOf b = e.public.digest)
    (unlocked : s.locked (layoutDir self.root l) .transferLock = false) :
    ∃ evidence, self.Attains π s (.step o.context (.commitRecall o.target evidence)) fun st =>
      st.recalls = self.state.recalls.erase l ∧ st.views = self.state.views := by
  obtain ⟨ctx, target, anchor⟩ := o
  obtain rfl := (hc.recall _ _ ho).1
  obtain ⟨published, destination, e, he, sealable⟩ := h.publishable hc ho
  obtain ⟨hb, hg⟩ := right e he
  have root : s.dir self.root = true := Disk.dir_of_lookup (n := .state) (by simp [hs.1])
  refine ⟨⟨b.length, digestOf b⟩, ?_, fun answer self' s' hr => ?_⟩
  · obtain ⟨⟨answer, self'⟩, s', hr⟩ := Prog.supplied_runs offers.supplies
      (self.perform (.step ctx (.commitRecall target ⟨b.length, digestOf b⟩))) roomy
    exact ⟨answer, self', s', hr⟩
  have hw : (self.performStep ctx (.commitRecall target ⟨b.length, digestOf b⟩)).wp (fsMachine π)
      (fun _ => True) (fun x _ => (∃ reply, x.1 = .ok reply) ∧
        x.2.state.recalls = self.state.recalls.erase target.layoutId ∧
        x.2.state.views = self.state.views) s := by
    refine wp_replying (wp_step hp trivial (fun e he => ?_) (fun saved _ hl => ?_) fun _ _ => ?_)
    · rw [h.qualified] at he
      cases he
    · rw [show StepRequest.name _ = .commitRecall from rfl, h.pending.untried] at hl
      cases hl
    · refine wp_commitRecallEffect (fun _ _ _ _ => trivial) (fun _ _ => trivial)
        (fun _ _ r s' _ _ _ hr hw _ _ => ?_) fun e s' _ hn => ?_
      · obtain ⟨_, -, -, -, next⟩ := State.publish_eq_ok.mp hr
        refine wp_adopt (fun _ _ => trivial)
          (fun s'' _ _ _ => ⟨⟨_, rfl⟩, by rw [next]; exact ⟨rfl, rfl⟩⟩) fun e s'' _ _ hn => ?_
        rw [hw.placed.others.dir _ .state ⟨id, fun h => layoutDir_ne_root h.1.symm⟩ root] at hn
        exact (hn.elim (fun h => h hπ) (by simp)).elim
      · exact (hn ⟨hπ, destination, ⟨anchor, b, ho, held, sealable b hb hg⟩,
          published, unlocked⟩).elim
  have := Prog.wp_sound_runs hw hr
  exact this

end State.Committable

end

namespace Reference

def loaded : Option (World Keyed) :=
  (World.enter ["s"] ["store", "ns", "t1"] ["u0", "t2", "t3", "v", "t4", "t5"] blank).bind <|
    World.rehearse ["v", "t4", "t5"] [(.import "e" [0], ["u0", "t2", "t3"])]

def held : Option (World Keyed) := loaded.bind <|
  World.rehearse ["t5"] [(.step ⟨"archive", 1, 1⟩ (.prepareArchive content), ["v", "t4"])]

theorem held_heeded : ∃ w self, held = some w ∧ w.handle = some self ∧
    w.Heeded regular ["s"] ∧ w.disk.Roomy ∧ (∀ u ∈ ["t5"], w.disk.Unused u) ∧
    self.state.views.lookup "v" = some ⟨⟨"archive", 1, 1⟩, view⟩ := by
  have hv : (held.bind fun w => w.handle.bind fun self => self.state.views.lookup "v") =
      some ⟨⟨"archive", 1, 1⟩, view⟩ := by decide +kernel
  have hp : (loaded.bind fun w => w.handle.map fun self =>
      (self.state.steps.lookup (key (.step ⟨"archive", 1, 1⟩ .commitArchive)) |>.isNone,
        self.state.completed.lookup "archive" |>.isNone)) = some (true, true) := by decide +kernel
  obtain ⟨w, hw, hv⟩ := Option.bind_eq_some_iff.mp hv
  obtain ⟨self, hs, hv⟩ := Option.bind_eq_some_iff.mp hv
  obtain ⟨⟨s₁, handle₁⟩, h₁, h₂⟩ := Option.bind_eq_some_iff.mp hw
  obtain ⟨⟨s₀, handle₀⟩, h₀, h₁'⟩ := Option.bind_eq_some_iff.mp h₁
  obtain ⟨self₀, hs₀, opened, unused₀⟩ := World.enter_runs regular_offers (by decide)
    (fun u hu => blank_unused (by rintro rfl; revert hu; decide)
      (by rintro rfl; revert hu; decide)) h₀
  obtain rfl : handle₀ = some self₀ := hs₀
  obtain ⟨self₀', x, self₁, s₁', hs₀', importing, unused₁, h₁'⟩ :=
    World.rehearse_runs regular_offers h₁' (by decide) unused₀
  obtain rfl : self₀ = self₀' := Option.some.inj hs₀'
  cases h₁'
  obtain ⟨self₁', y, self₂, s₂, hs₁, pinning, unused₂, h₂⟩ :=
    World.rehearse_runs regular_offers h₂ (by decide) unused₁
  obtain rfl : self₁ = self₁' := Option.some.inj hs₁
  cases h₂
  obtain rfl : self₂ = self := Option.some.inj hs
  rw [h₁] at hp
  simp only [Option.bind_some, Option.map_some, Option.some.injEq, Prod.mk.injEq,
    Option.isNone_iff_eq_none] at hp
  have heeds : (Request.step ⟨"archive", 1, 1⟩ (.prepareArchive content)).Heeds self₁ s₁ :=
    fun _ _ _ _ _ => ⟨hp.1, hp.2⟩
  refine ⟨_, self₂, hw, rfl, ⟨blank, rfl, rfl, ?_⟩, ?_, unused₂, hv⟩
  · have imports : (Request.import "e" [0]).Heeds self₀ s₀ := trivial
    exact .tail (.tail (.single (.opens (.opened opened))) (.call imports importing))
      (.call heeds pinning)
  · exact ((blank_roomy.runs opened).runs importing).runs pinning

end Reference

section

variable [Crates] {π : Policy (FileName κ) (Content κ)}

/-! ## Orphans -/

namespace State

/-- The commit of the operation cannot succeed any more: it is on record, or the operation ID has
completed another action. -/
def Spent (st : State κ) (ctx : OperationContext) (commit : StepName) : Prop :=
  st.steps.lookup (key (.step ctx commit)) ≠ none ∨
    ∃ c, st.completed.lookup ctx.operationId = some c ∧ c.action.step ≠ commit

namespace Spent

variable {commit : StepName}

omit [Crates] in
theorem record {k : κ} {saved : SavedStep κ} (h : st.Spent ctx commit) :
    (st.record k saved).Spent ctx commit :=
  h.imp_left lookup_record_ne_none

theorem effect {ctx' : OperationContext} {fresh : String → Prop} {request : StepRequest}
    {value : StepValue} (h : st.Spent ctx commit)
    (he : Effect root fresh st ctx' request value next) : next.Spent ctx commit := by
  rcases h with hr | ⟨c, hc, hne⟩
  · exact .inl (he.steps ▸ hr)
  rcases he.completes with ⟨completed, -⟩ | ⟨-, e, e', action, -, admits, -, -, -, -, -, completed⟩
  · exact .inr ⟨c, completed ▸ hc, hne⟩
  refine .inr ?_
  rw [completed, Table.lookup_insert]
  split
  · rename_i hid
    -- the same operation ID completes the same action only
    obtain ⟨-, -, rfl⟩ := admits c (hid ▸ hc)
    exact ⟨_, rfl, hne⟩
  · exact ⟨c, hc, hne⟩

omit [Crates] in
theorem not_admits {data : DataKey} {action : ManagedAction} (h : st.Spent ctx action.step)
    (hn : st.steps.lookup (key (.step ctx action.step)) = none) : ¬ st.Admits ctx data action := by
  rintro admits
  rcases h with hr | ⟨c, hc, hne⟩
  · exact hr hn
  · exact hne (by rw [(admits c hc).2.2])

end Spent

def OrphanedView (v : String) (o : ViewOwner) (i : String → Bool) (st : State κ) : Prop :=
  i v = true ∧ st.views.lookup v = some o ∧ st.Spent o.context .commitArchive

def OrphanedRecall (l : String) (o : RecallOwner) (i : String → Bool) (st : State κ) : Prop :=
  i l = true ∧ st.recalls.lookup l = some o ∧ st.Spent o.context .commitRecall

theorem OrphanedView.stable (hπ : π.Fresh) {v : String} {o : ViewOwner} :
    Stable π root (OrphanedView v o : (String → Bool) → State κ → Prop) where
  mono hi h := ⟨hi v h.1, h.2⟩
  call {i i' st request answer next} hi h hs := by
    obtain ⟨hv, ho, hr⟩ := h
    cases hs with
    | failed => exact ⟨hi v hv, ho, hr.record⟩
    | done _ hn he =>
      refine ⟨hi v hv, ?_, (hr.effect he).record⟩
      cases he with
      | @prepareArchive view _ _ _ _ hu _ =>
        have : v ≠ view.viewId := by
          rintro rfl
          have := hu.unissued hπ
          simp [hv] at this
        simpa [State.record, Table.lookup_insert, this] using ho
      | @commitArchive view receipt _ hc _ _ _ admits =>
        have : v ≠ view.viewId := by
          rintro rfl
          rw [hc] at ho
          cases ho
          exact hr.not_admits hn admits
        simpa [State.record, Table.lookup_erase, this] using ho
      | _ => exact ho
    | _ => exact ⟨hi v hv, ho, hr⟩

theorem OrphanedRecall.stable (hπ : π.Fresh) {l : String} {o : RecallOwner} :
    Stable π root (OrphanedRecall l o : (String → Bool) → State κ → Prop) where
  mono hi h := ⟨hi l h.1, h.2⟩
  call {i i' st request answer next} hi h hs := by
    obtain ⟨hl, ho, hr⟩ := h
    cases hs with
    | failed => exact ⟨hi l hl, ho, hr.record⟩
    | done _ hn he =>
      refine ⟨hi l hl, ?_, (hr.effect he).record⟩
      cases he with
      | @prepareRecall _ _ layout _ _ _ hu _ =>
        have : l ≠ layout := by
          rintro rfl
          have := hu.unissued hπ
          simp [hl] at this
        simpa [State.record, Table.lookup_insert, this] using ho
      | @commitRecall target _ _ hc _ _ _ admits =>
        have : l ≠ target.layoutId := by
          rintro rfl
          rw [hc] at ho
          cases ho
          exact hr.not_admits hn admits
        simpa [State.record, Table.lookup_erase, this] using ho
      | _ => exact ho
    | _ => exact ⟨hi l hl, ho, hr⟩

def Viewed (i : String → Bool) (st : State κ) : Prop :=
  ∀ v o, st.views.lookup v = some o → i v = true

theorem Viewed.stable : Stable π root (Viewed : (String → Bool) → State κ → Prop) where
  mono hi h v o ho := hi v (h v o ho)
  call {i i' st request answer next} hi h hs := by
    have kept : st.Viewed i' := fun v o ho => hi v (h v o ho)
    cases hs with
    | done _ _ he =>
      cases he with
      | prepareArchive _ _ hu _ =>
        intro v o ho
        simp only [State.record, Table.lookup_insert] at ho
        split at ho
        · rename_i hv
          exact hv ▸ hu.2
        · exact kept v o ho
      | commitArchive =>
        intro v o ho
        simp only [State.record, Table.lookup_erase] at ho
        split at ho
        · cases ho
        · exact kept v o ho
      | _ => exact kept
    | _ => exact kept

end State

namespace World

variable {w : World κ} {self : LocalStorage κ}

/-- From now on every version of the metadata is like this. -/
def Stays (π : Policy (FileName κ) (Content κ)) (root : Dir) (w : World κ)
    (kept : State κ → Prop) : Prop :=
  ∀ w' st, Steps π root w w' → w'.Version root st → kept st

theorem Reachable.view_stays (hπ : π.Fresh) (h : w.Reachable π root) (hw : w.handle = some self)
    {v : String} {o : ViewOwner} (ho : self.state.views.lookup v = some o)
    (spent : self.state.Spent o.context .commitArchive) :
    w.Stays π root fun st => st.views.lookup v = some o ∧ st.Pins root o.view := by
  intro w' st hs hv
  have viewed : w.Keeps π root State.Viewed :=
    h.keeps State.Viewed.stable fun _ _ _ v o ho => by simp [State.new] at ho
  have orphaned := (hs.since_sighted viewed hw (State.OrphanedView.stable hπ)
    fun i hi => ⟨hi v o ho, ho, spent⟩).version hv
  exact ⟨orphaned.2.1, (((h.steps hs).coherent.version hv).1.view v o orphaned.2.1).2⟩

theorem Reachable.recall_stays (hπ : π.Fresh) (h : w.Reachable π root) (hw : w.handle = some self)
    {l : String} {o : RecallOwner} (ho : self.state.recalls.lookup l = some o)
    (spent : self.state.Spent o.context .commitRecall) :
    w.Stays π root fun st => st.recalls.lookup l = some o ∧ st.Reserves root o := by
  intro w' st hs hv
  have orphaned := (hs.since_sighted h.coherent hw (State.OrphanedRecall.stable hπ)
    fun i hi => ⟨hi.2 l o ho, ho, spent⟩).version hv
  exact ⟨orphaned.2.1, (((h.steps hs).coherent.version hv).1.recall l o orphaned.2.1).2⟩

end World

/-- Once the commit of a protection's owner is on record while the protection is there, it stays in
every world that is reached, and with it the residency of its entity. -/
theorem protection_orphaned {w : World κ} {self : LocalStorage κ} (hπ : π.Fresh)
    (h : w.Reachable π root) (hw : w.handle = some self) :
    (∀ v o, self.state.views.lookup v = some o →
      self.state.steps.lookup (key (.step o.context .commitArchive)) ≠ none →
      ∀ w' st, World.Steps π root w w' → w'.Version root st →
        st.views.lookup v = some o ∧ st.Pins root o.view) ∧
    ∀ l o, self.state.recalls.lookup l = some o →
      self.state.steps.lookup (key (.step o.context .commitRecall)) ≠ none →
      ∀ w' st, World.Steps π root w w' → w'.Version root st →
        st.recalls.lookup l = some o ∧ st.Reserves root o :=
  ⟨fun _ _ ho hr => h.view_stays hπ hw ho (.inl hr),
    fun _ _ ho hr => h.recall_stays hπ hw ho (.inl hr)⟩

end

namespace Reference

def misled : Option (World Keyed) := held.bind <|
  World.rehearse []
    [(.step ⟨"archive", 1, 1⟩ (.commitArchive view { receipt with length := 2 }), ["t5"])]

/-- From then on it stays pinned. -/
theorem protection_orphaned_misled : ∃ w self, misled = some w ∧ w.handle = some self ∧
    self.state.views.lookup "v" = some ⟨⟨"archive", 1, 1⟩, view⟩ ∧
    ∀ w' st, World.Steps regular.sighted ["s"] w w' → w'.Version ["s"] st →
      st.views.lookup "v" = some ⟨⟨"archive", 1, 1⟩, view⟩ := by
  have hv : (misled.bind fun w => w.handle.bind fun self => self.state.views.lookup "v") =
      some ⟨⟨"archive", 1, 1⟩, view⟩ := by decide +kernel
  have hr : (misled.bind fun w => w.handle.map fun self =>
      (self.state.steps.lookup (key (.step ⟨"archive", 1, 1⟩ .commitArchive))).isSome) =
      some true := by decide +kernel
  obtain ⟨w, hw, hv⟩ := Option.bind_eq_some_iff.mp hv
  obtain ⟨self, hs, hv⟩ := Option.bind_eq_some_iff.mp hv
  obtain ⟨w₁, self₁, hw₁, hs₁, heeded, -, unused, -⟩ := held_heeded
  have rehearsed : w₁.rehearse [] [(.step ⟨"archive", 1, 1⟩
      (.commitArchive view { receipt with length := 2 }), ["t5"])] = some w := by
    rw [misled, hw₁] at hw
    exact hw
  have reachable := heeded.reachable.steps
    (World.rehearse_steps regular_offers rehearsed (by decide) unused).1
  rw [hw, Option.bind_some, hs, Option.map_some, Option.some.injEq] at hr
  refine ⟨w, self, hw, hs, hv, fun w' st steps version => ?_⟩
  exact ((protection_orphaned regular_fresh reachable hs).1 "v" _ hv
    (Option.isSome_iff_ne_none.mp hr) w' st steps version).1

end Reference

end HsmRs
