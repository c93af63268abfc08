import HsmRs.Local.Adapters
import HsmRs.Storage.Residency

/-! # The history of an entity

The completed operations of an entity, its revision and the step records stay in
step: each effect is entered once, under its operation ID, with the revision it
made. Identities never change, anchors are only appended.
-/

namespace HsmRs

variable {κ : Type} {root : Dir} {st next : State κ} {ctx : OperationContext}
  {fresh : String → Prop}

def ManagedAction.step : ManagedAction → StepName
  | archive _ => .commitArchive
  | release => .release
  | «recall» _ => .commitRecall

/-- The revisions of the completed operations on `data`. -/
def State.revisions (st : State κ) (data : DataKey) : Multiset Nat :=
  (st.completed.entries.filter fun x => x.2.data = data).map fun x => x.2.state.revision

/-- The same entity, possibly later. -/
structure EntityState.Continues (a b : EntityState) : Prop where
  data : b.data = a.data
  length : b.length = a.length
  digest : b.digest = a.digest
  anchors : a.anchors <+: b.anchors

namespace EntityState.Continues

variable {a b c : EntityState}

theorem refl (a : EntityState) : a.Continues a := ⟨rfl, rfl, rfl, List.prefix_refl _⟩

theorem trans (h : a.Continues b) (h' : b.Continues c) : a.Continues c :=
  ⟨h'.data.trans h.data, h'.length.trans h.length, h'.digest.trans h.digest,
    h.anchors.trans h'.anchors⟩

theorem attached (a : EntityState) (receipt : ArchiveReceipt) :
    a.Continues (a.attached receipt) := by
  refine ⟨rfl, rfl, rfl, ?_⟩
  simp only [EntityState.attached]
  split
  · exact List.prefix_refl _
  · exact List.prefix_append _ _

end EntityState.Continues

/-- An effect is a preparation that touches no entity, or it completes one operation on one
entity and makes its next revision. -/
theorem Effect.completes [Crates] {request : StepRequest} {value : StepValue}
    (h : Effect root fresh st ctx request value next) :
    next.completed = st.completed ∧ next.entities = st.entities ∨
    ∃ id e e' action, st.entities.lookup id = some e ∧ st.Admits ctx e.public.data action ∧
      request.name = action.step ∧ value = .state e'.public ∧ e.public.Continues e'.public ∧
      e'.public.revision = e.public.revision + 1 ∧
      next.entities = st.entities.insert id e' ∧
      next.completed =
        st.completed.insert ctx.operationId ⟨ctx, e.public.data, action, e'.public⟩ := by
  cases h with
  | prepareArchive => exact .inl ⟨rfl, rfl⟩
  | @commitArchive view receipt e _ he _ _ ha =>
    obtain ⟨-, hx, hd⟩ := State.entity_eq_ok.mp he
    refine .inr ⟨_, e, { e with «public» := e.public.attached receipt }, _, hx, hd ▸ ha, rfl, rfl,
      .attached _ _, rfl, rfl, ?_⟩
    rw [hd]
  | @release e layout he _ _ _ _ ha =>
    obtain ⟨-, hx, -⟩ := State.entity_eq_ok.mp he
    exact .inr ⟨_, e, ⟨e.public.released, none⟩, _, hx, ha, rfl, rfl,
      ⟨rfl, rfl, rfl, List.prefix_refl _⟩, rfl, rfl, rfl⟩
  | prepareRecall => exact .inl ⟨rfl, rfl⟩
  | @commitRecall target anchor e _ he _ _ ha =>
    obtain ⟨-, hx, hd⟩ := State.entity_eq_ok.mp he
    refine .inr ⟨_, e, ⟨e.public.recalled, some target.layoutId⟩, _, hx, hd ▸ ha, rfl, rfl,
      ⟨rfl, rfl, rfl, List.prefix_refl _⟩, rfl, rfl, ?_⟩
    rw [hd]

theorem State.revisions_insert {op : String} {c : Completed} {data : DataKey}
    (h : st.completed.lookup op = none) :
    revisions { st with completed := st.completed.insert op c } data =
      if c.data = data then c.state.revision ::ₘ st.revisions data else st.revisions data := by
  have hn : op ∉ st.completed := Finmap.lookup_eq_none.mp h
  unfold revisions
  rw [Finmap.entries_insert_of_notMem hn, Multiset.filter_cons]
  split <;> simp

section

variable [DecidableEq κ] [KeyHash κ]

/-- Every outcome is that of a recorded step of the same context, and the outcomes of an entity
made exactly its revisions from 2 on. -/
structure State.Historic (st : State κ) : Prop where
  outcome : ∀ op c, st.completed.lookup op = some c → c.context.operationId = op ∧
    ∃ fingerprint, st.steps.lookup (key (.step c.context c.action.step)) =
      some ⟨fingerprint, .ok (.state c.state)⟩
  owned : ∀ op c, st.completed.lookup op = some c →
    ∃ e, st.entities.lookup c.data.entity.entity = some e
  revision : ∀ id e, st.entities.lookup id = some e → 0 < e.public.revision ∧
    st.revisions e.public.data = List.range' 2 (e.public.revision - 1)

namespace State

variable [Crates]

omit [Crates] in
theorem Historic.revision_eq (h : st.Historic) {id : String} {e : Entity}
    (he : st.entities.lookup id = some e) :
    e.public.revision =
      1 + (st.completed.entries.filter fun x => x.2.data = e.public.data).card := by
  obtain ⟨hp, hr⟩ := h.revision id e he
  have hc := congrArg Multiset.card hr
  simp only [revisions, Multiset.card_map, Multiset.coe_card, List.length_range'] at hc
  omega

omit [Crates] in
theorem Historic.unused (h : st.Historic) {data : DataKey} {action : ManagedAction}
    (ha : st.Admits ctx data action) (hk : st.steps.lookup (key (.step ctx action.step)) = none) :
    st.completed.lookup ctx.operationId = none := by
  cases hc : st.completed.lookup ctx.operationId with
  | none => rfl
  | some c =>
    obtain ⟨rfl, -, rfl⟩ := ha c hc
    obtain ⟨-, fingerprint, hs⟩ := h.outcome _ c hc
    rw [hk] at hs
    cases hs

omit [KeyHash κ] [Crates] in
theorem lookup_record_of_none {k k' : κ} {saved x : SavedStep κ} (hk : st.steps.lookup k = none)
    (hx : st.steps.lookup k' = some x) : (st.record k saved).steps.lookup k' = some x := by
  have : k' ≠ k := by
    rintro rfl
    rw [hk] at hx
    cases hx
  simpa [record, Table.lookup_insert, this] using hx

omit [Crates] in
theorem Historic.record (h : st.Historic) {k : κ} {saved : SavedStep κ}
    (hk : st.steps.lookup k = none) : (st.record k saved).Historic where
  outcome op c hc := by
    obtain ⟨ho, fingerprint, hs⟩ := h.outcome op c hc
    exact ⟨ho, fingerprint, lookup_record_of_none hk hs⟩
  owned := h.owned
  revision := h.revision

theorem Historic.done (h : st.Historic) (hc : st.Coherent root) {request : StepRequest}
    {value : StepValue} {fingerprint : κ}
    (hk : st.steps.lookup (key (.step ctx request.name)) = none)
    (he : Effect root fresh st ctx request value next) :
    (next.record (key (.step ctx request.name)) ⟨fingerprint, .ok value⟩).Historic := by
  have hsteps := he.steps
  rcases he.completes with ⟨hcomp, hent⟩ |
    ⟨id, e, e', action, hx, ha, hn, rfl, hcont, hrev, hent, hcomp⟩
  · have : next.Historic := by
      refine ⟨?_, ?_, ?_⟩
      · rw [hcomp, hsteps]
        exact h.outcome
      · rw [hcomp, hent]
        exact h.owned
      · unfold revisions
        rw [hcomp, hent]
        exact h.revision
    exact this.record (hsteps ▸ hk)
  · rw [hn] at hk ⊢
    have hu := h.unused ha hk
    refine ⟨?_, ?_, ?_⟩
    · intro op c hl
      simp only [State.record, hcomp, Table.lookup_insert] at hl
      split at hl
      · cases hl
        exact ⟨(by assumption : op = ctx.operationId).symm, fingerprint, by simp [State.record]⟩
      · obtain ⟨ho, f, hs⟩ := h.outcome op c hl
        exact ⟨ho, f, lookup_record_of_none (hsteps ▸ hk) (hsteps ▸ hs)⟩
    · intro op c hl
      simp only [State.record, hcomp, hent, Table.lookup_insert] at hl ⊢
      split at hl
      · cases hl
        exact ⟨e', by simp [hc.name_eq hx]⟩
      · obtain ⟨x, hx'⟩ := h.owned op c hl
        split
        · exact ⟨e', rfl⟩
        · exact ⟨x, hx'⟩
    · intro i x hi
      have hr : ∀ data, revisions (next.record (key (.step ctx action.step))
          ⟨fingerprint, .ok (.state e'.public)⟩) data =
          if e.public.data = data then e'.public.revision ::ₘ st.revisions data
          else st.revisions data := by
        intro data
        have hins := @revisions_insert κ st _ ⟨ctx, e.public.data, action, e'.public⟩ data hu
        unfold revisions at hins ⊢
        simp only [State.record, hcomp]
        exact hins
      rw [hr]
      simp only [State.record, hent, Table.lookup_insert] at hi
      obtain ⟨hpos, hrs⟩ := h.revision _ _ hx
      split at hi
      · cases hi
        rw [if_pos hcont.data.symm, hcont.data, hrs, hrev]
        refine ⟨by omega, ?_⟩
        have hlast : 2 + 1 * (e.public.revision - 1) = e.public.revision + 1 := by omega
        have hlen : e.public.revision + 1 - 1 = (e.public.revision - 1) + 1 := by omega
        rw [hlen, List.range'_concat, hlast, Multiset.cons_coe, Multiset.coe_eq_coe]
        exact (List.perm_append_singleton _ _).symm
      · rename_i hne
        have : e.public.data ≠ x.public.data := fun hd => hne <| by
          rw [← hc.name_eq hi, ← hc.name_eq hx, hd]
        rw [if_neg this]
        exact h.revision _ _ hi

omit [DecidableEq κ] [Crates] in
theorem Historic.new {a b : String} [DecidableEq κ] : (State.new a b : State κ).Historic := by
  refine ⟨?_, ?_, ?_⟩ <;> intros <;> simp_all [State.new]

omit [Crates] in
theorem Historic.import (h : st.Historic) {id : String} {layout : String} {length : Nat}
    {digest : ContentDigest} (hi : id ∉ st.entities) :
    State.Historic { st with
      entities := st.entities.insert id
        (LocalStorage.imported st id layout length digest) } := by
  have absent : st.entities.lookup id = none := Finmap.lookup_eq_none.mpr hi
  refine ⟨h.outcome, ?_, ?_⟩
  · intro op c hl
    obtain ⟨x, hx⟩ := h.owned op c hl
    simp only [Table.lookup_insert]
    split
    · exact ⟨_, rfl⟩
    · exact ⟨x, hx⟩
  · intro i x hx
    simp only [Table.lookup_insert] at hx
    split at hx
    · cases hx
      refine ⟨by simp [LocalStorage.imported], ?_⟩
      -- no operation has completed on an entity that did not exist
      have : ∀ y ∈ st.completed.entries,
          y.2.data ≠ (LocalStorage.imported st id layout length digest).public.data := by
        rintro ⟨op, c⟩ hy hd
        obtain ⟨e, he⟩ := h.owned op c (Finmap.lookup_eq_some_iff.mpr hy)
        rw [hd] at he
        simp [LocalStorage.imported, absent] at he
      unfold revisions
      rw [Multiset.filter_eq_nil.mpr this]
      simp [LocalStorage.imported]
    · exact h.revision i x hx

theorem Historic.closed :
    Closed root fun st : State κ => st.Coherent root ∧ st.Historic := by
  intro fresh st request answer next h hs
  refine ⟨State.Coherent.closed _ _ _ _ _ h.1 hs, ?_⟩
  obtain ⟨hc, hh⟩ := h
  cases hs with
  | failed _ hk => exact hh.record hk
  | done _ hk he => exact hh.done hc hk he
  | imported _ hi _ => exact hh.import hi
  | collected => exact ⟨hh.outcome, hh.owned, hh.revision⟩

/-! ### What later metadata keep -/

/-- Later metadata of the same store: every entity continues, every outcome and every step
record is still there. -/
structure Extends (base st : State κ) : Prop where
  storageId : st.storageId = base.storageId
  «namespace» : st.namespace = base.namespace
  entity : ∀ id e, base.entities.lookup id = some e → ∃ e', st.entities.lookup id = some e' ∧
    e.public.Continues e'.public ∧ e.public.revision ≤ e'.public.revision
  completed : ∀ op c, base.completed.lookup op = some c → st.completed.lookup op = some c
  step : ∀ k saved, base.steps.lookup k = some saved → st.steps.lookup k = some saved

variable {base : State κ}

omit [KeyHash κ] [Crates] in
theorem Extends.refl (st : State κ) : st.Extends st :=
  ⟨rfl, rfl, fun _ e he => ⟨e, he, .refl _, le_rfl⟩, fun _ _ h => h, fun _ _ h => h⟩

omit [KeyHash κ] [Crates] in
theorem Extends.record (h : base.Extends st) {k : κ} {saved : SavedStep κ}
    (hk : st.steps.lookup k = none) : base.Extends (st.record k saved) :=
  ⟨h.storageId, h.namespace, h.entity, h.completed,
    fun k' x hx => lookup_record_of_none hk (h.step k' x hx)⟩

theorem Extends.effect (h : base.Extends st) (hh : st.Historic) {request : StepRequest}
    {value : StepValue} (hk : st.steps.lookup (key (.step ctx request.name)) = none)
    (he : Effect root fresh st ctx request value next) : base.Extends next := by
  have hs : next.storageId = st.storageId ∧ next.namespace = st.namespace := by
    cases he <;> exact ⟨rfl, rfl⟩
  have hsteps := he.steps
  rcases he.completes with ⟨hcomp, hent⟩ |
    ⟨id, e, e', action, hx, ha, hn, rfl, hcont, hrev, hent, hcomp⟩
  · refine ⟨hs.1.trans h.storageId, hs.2.trans h.namespace, ?_, ?_, ?_⟩
    · rw [hent]
      exact h.entity
    · rw [hcomp]
      exact h.completed
    · rw [hsteps]
      exact h.step
  · refine ⟨hs.1.trans h.storageId, hs.2.trans h.namespace, ?_, ?_, ?_⟩
    · intro i x hi
      obtain ⟨y, hy, hxy, hle⟩ := h.entity i x hi
      rw [hent, Table.lookup_insert]
      split
      · rename_i hid
        rw [hid, hx] at hy
        cases hy
        exact ⟨e', rfl, hxy.trans hcont, by omega⟩
      · exact ⟨y, hy, hxy, hle⟩
    · intro op c hc
      have hop : op ≠ ctx.operationId := by
        rintro rfl
        have := hh.unused ha (hn ▸ hk)
        rw [h.completed _ c hc] at this
        cases this
      rw [hcomp, Table.lookup_insert, if_neg hop]
      exact h.completed op c hc
    · rw [hsteps]
      exact h.step

theorem Extends.closed : Closed root fun st : State κ =>
    (st.Coherent root ∧ st.Historic) ∧ base.Extends st := by
  intro fresh st request answer next h hs
  refine ⟨State.Historic.closed _ _ _ _ _ h.1 hs, ?_⟩
  obtain ⟨⟨-, hh⟩, h⟩ := h
  cases hs with
  | failed _ hk => exact h.record hk
  | done _ hk he => exact (h.effect hh hk he).record (he.steps ▸ hk)
  | @imported id _ _ _ hi _ =>
    refine ⟨h.storageId, h.namespace, fun i x hx => ?_, h.completed, h.step⟩
    obtain ⟨y, hy, hr⟩ := h.entity i x hx
    have : i ≠ id := by
      rintro rfl
      exact hi (Finmap.lookup_isSome.mp (by simp [hy]))
    exact ⟨y, by simpa [Table.lookup_insert, this] using hy, hr⟩
  | collected => exact ⟨h.storageId, h.namespace, h.entity, h.completed, h.step⟩

end State

namespace World

variable [Crates] {π : Policy (FileName κ) (Content κ)} {w w' : World κ} {self : LocalStorage κ}

theorem Reachable.historic (h : w.Reachable π root) :
    w.Keeps π root fun _ st => st.Coherent root ∧ st.Historic :=
  h.keeps State.Historic.closed.stable fun _ _ _ => ⟨.new, .new⟩

theorem Reachable.extends (h : w.Reachable π root) (hw : w.handle = some self)
    (hs : Steps π root w w') :
    w'.Keeps π root fun _ st => (st.Coherent root ∧ st.Historic) ∧ self.state.Extends st :=
  hs.since_sighted h.historic hw State.Extends.closed.stable fun _ hq => ⟨hq, .refl _⟩

end World

/-! ## Reused operation IDs -/

/-- The operation ID has completed for another context, content or action. -/
def LocalStorage.Reuses (self : LocalStorage κ) (ctx : OperationContext) (data : DataKey)
    (action : ManagedAction) : Prop :=
  ∃ old, self.state.completed.lookup ctx.operationId = some old ∧
    ¬ (old.context = ctx ∧ old.data = data ∧ old.action = action)

omit [DecidableEq κ] [KeyHash κ] in
theorem LocalStorage.Reuses.completed {self : LocalStorage κ} {data : DataKey}
    {action : ManagedAction} (h : self.Reuses ctx data action) :
    ∃ e, self.completed ctx data action = .error e := by
  obtain ⟨old, ho, hn⟩ := h
  unfold LocalStorage.completed
  cases qualify ctx with
  | error e => exact ⟨e, rfl⟩
  | ok =>
    cases self.healthy with
    | error e => exact ⟨e, rfl⟩
    | ok =>
      cases self.state.validateKey data.entity with
      | error e => exact ⟨e, rfl⟩
      | ok =>
        refine ⟨.conflict "operation ID reused with different inputs", ?_⟩
        rw [ho]
        simp only [if_neg hn]
        rfl

section

variable [Crates] {stores : Stores κ} {data : DataKey} {e : HsmError}

/-- The beginning of the three workflows: an operation that the storage refuses to look up is
refused, and nothing else is called. -/
theorem Workflow.locally_refused {action : ManagedAction} {rest : Workflow EntityState}
    (h : stores.storage.completed ctx data action = .error e) :
    ∃ e', Workflow.locally (do
      ctx.validate
      match ← HsmEngine.completed ctx data action with
      | some result => return result
      | none => rest) stores = .ret (.error e', stores) := by
  unfold Workflow.locally
  cases hv : ctx.validate with
  | error e' => exact ⟨e', rfl⟩
  | ok =>
    refine ⟨e, ?_⟩
    change (Stores.storageCall stores (.completed ctx data action) >>= fun x => _) = _
    simp only [Stores.storageCall, h]
    rfl

theorem World.Keeps.import {π : Policy (FileName κ) (Content κ)} {w : World κ}
    {Q : (String → Bool) → State κ → Prop} {self self' : LocalStorage κ}
    {s' : Disk (FileName κ) (Content κ)} {id : String} {bytes : Bytes} {x : EntityState}
    (h : w.Keeps π root Q) (hw : w.handle = some self)
    (hr : Runs (fsMachine π) (self.perform (.import id bytes)) w.disk
      (.ok (.value (.state x)), self') s') :
    ∃ e, self'.state.entities.lookup id = some e ∧ e.public = x := by
  obtain rfl := h.root_eq self hw
  by_cases hd : self.poisoned = true
  · rw [perform_poisoned hd, Runs.ret_iff] at hr
    cases hr.1
  have hd : self.poisoned = false := by simpa using hd
  cases perform_runs hd (h.safe self hw hd) hr with
  | kept ha => cases ha
  | adopted ha =>
    cases ha
    exact ⟨_, by simp, rfl⟩

end

/-- In every reachable world an entity's revisions are exactly those its completed operations
made; identities, outcomes and anchors never change but by appending; and an operation ID
that has completed cannot be used for anything else. -/
theorem operation_history [Crates] {π : Policy (FileName κ) (Content κ)} {w : World κ}
    (h : w.Reachable π root) :
    (∀ st, w.Version root st → st.Historic ∧
      ∀ id e, st.entities.lookup id = some e →
        e.public.data = ⟨⟨st.storageId, st.namespace, id⟩, 1⟩ ∧
        e.public.revision =
          1 + (st.completed.entries.filter fun x => x.2.data = e.public.data).card) ∧
    ∀ self, w.handle = some self →
      (∀ id bytes x self' s', Runs (fsMachine π) (self.perform (.import id bytes)) w.disk
          (.ok (.value (.state x)), self') s' →
        ∃ e, self'.state.entities.lookup id = some e ∧ e.public = x) ∧
      ∀ w', World.Steps π root w w' →
        (∀ st, w'.Version root st → self.state.Extends st) ∧
        ∀ self', w'.handle = some self' → ∀ op c, self.state.completed.lookup op = some c →
          ∀ ctx archive, ctx.operationId = op →
          (∀ data key, ¬ (c.data = data ∧ c.action = .archive key) → ∃ e,
            (HsmEngine.archive ctx data key).locally ⟨self', archive⟩ =
              .ret (.error e, ⟨self', archive⟩)) ∧
          (∀ expected, ¬ (c.data = expected.data ∧ c.action = .release) → ∃ e,
            (HsmEngine.release ctx expected).locally ⟨self', archive⟩ =
              .ret (.error e, ⟨self', archive⟩)) ∧
          (∀ expected key, ¬ (c.data = expected.data ∧ c.action = .«recall» key) → ∃ e,
            (HsmEngine.recall ctx expected key).locally ⟨self', archive⟩ =
              .ret (.error e, ⟨self', archive⟩)) := by
  refine ⟨fun st hv => ?_, fun self hw => ⟨fun id bytes x self' s' hr => ?_, fun w' hs => ?_⟩⟩
  · obtain ⟨hc, hh⟩ := h.historic.version hv
    exact ⟨hh, fun id e he => ⟨(hc.entity id e he).data, hh.revision_eq he⟩⟩
  · exact h.historic.import hw hr
  · have hk := h.extends hw hs
    refine ⟨fun st hv => (hk.version hv).2, fun self' hw' op c hc ctx archive hop => ?_⟩
    have hc' := (hk.cached self' hw').2.completed op c hc
    have reuses : ∀ data action, ¬ (c.data = data ∧ c.action = action) →
        self'.Reuses ctx data action := fun data action hn => ⟨c, hop ▸ hc', fun h => hn h.2⟩
    refine ⟨fun data key hn => ?_, fun expected hn => ?_, fun expected key hn => ?_⟩
    · obtain ⟨e, he⟩ := (reuses _ _ hn).completed
      exact Workflow.locally_refused he
    · obtain ⟨e, he⟩ := (reuses _ _ hn).completed
      exact Workflow.locally_refused he
    · obtain ⟨e, he⟩ := (reuses _ _ hn).completed
      exact Workflow.locally_refused he

end

open Reference in
/-- The entity of the example run has been archived and released. -/
theorem operation_history_recalling : ∃ w self, recalling = some w ∧ w.handle = some self ∧
    self.state.Historic ∧
    (self.state.completed.entries.filter fun x => x.2.data = content).card = 2 := by
  obtain ⟨w, self, hw, hs, h, -, -, he, -⟩ := recalling_reachable
  obtain ⟨hh, revision⟩ := (operation_history h).1 _ (.cached hs rfl)
  refine ⟨w, self, hw, hs, hh, ?_⟩
  have hr : 3 = 1 + (self.state.completed.entries.filter fun x => x.2.data = content).card :=
    (revision "e" _ he).2
  omega

end HsmRs
