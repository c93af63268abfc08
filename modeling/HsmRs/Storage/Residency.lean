import HsmRs.Storage.Play

/-! # The residency state machine

What holds between an entity's residency, its published layout, its anchors and
the views and recalls on it. `commit_archive` and `commit_recall` rely on the
guards of the other operations, so all clauses are kept together.
-/

namespace HsmRs

variable {κ : Type} {root : Dir} {st next : State κ}

/-- An entity of its own store whose residency tells what is published and anchored. -/
structure Entity.Fits (storageId ns id : String) (e : Entity) : Prop where
  data : e.public.data = ⟨⟨storageId, ns, id⟩, 1⟩
  offline : e.public.residency = .offline ↔ e.published = none
  online : e.public.residency = .online ↔ e.public.anchors = []
  anchors : ∀ a ∈ e.public.anchors, a.data = e.public.data ∧ a.length = e.public.length ∧
    a.digest = e.public.digest
  distinct : (e.public.anchors.map (·.key)).Nodup

/-- The view names the published layout of its entity and the entity's content. -/
def State.Pins [Crates] (root : Dir) (st : State κ) (view : DataView) : Prop :=
  ∃ e layout, st.entities.lookup view.data.entity.entity = some e ∧ e.public.data = view.data ∧
    e.published = some layout ∧ view.source = endpoint (layoutDir root layout) ∧
    view.length = e.public.length ∧ view.digest = e.public.digest

/-- The recall is on an offline entity that has its anchor, into a layout of its own. -/
def State.Reserves [Crates] (root : Dir) (st : State κ) (owner : RecallOwner) : Prop :=
  ∃ e, st.entities.lookup owner.target.data.entity.entity = some e ∧
    e.public.data = owner.target.data ∧ e.published = none ∧ owner.anchor ∈ e.public.anchors ∧
    owner.target.archive = owner.anchor.key ∧
    owner.target.destination = endpoint (layoutDir root owner.target.layoutId)

structure State.Coherent [Crates] (root : Dir) (st : State κ) : Prop where
  entity : ∀ id e, st.entities.lookup id = some e → e.Fits st.storageId st.namespace id
  view : ∀ v o, st.views.lookup v = some o → o.view.viewId = v ∧ st.Pins root o.view
  «recall» : ∀ l o, st.recalls.lookup l = some o → o.target.layoutId = l ∧ st.Reserves root o
  oneView : ∀ v v' o o', st.views.lookup v = some o → st.views.lookup v' = some o' →
    o.view.data = o'.view.data → v = v'
  oneRecall : ∀ l l' o o', st.recalls.lookup l = some o → st.recalls.lookup l' = some o' →
    o.target.data = o'.target.data → l = l'

namespace Entity.Fits

variable {storageId ns id : String} {e : Entity}

theorem attached {view : DataView} {receipt : ArchiveReceipt} (h : e.Fits storageId ns id)
    (hb : receipt.Binds view) (hd : e.public.data = view.data)
    (hl : view.length = e.public.length) (hg : view.digest = e.public.digest)
    (hs : ∀ a ∈ e.public.anchors, a.key = receipt.key → a = receipt)
    (hp : e.published ≠ none) :
    Entity.Fits storageId ns id { e with «public» := e.public.attached receipt } := by
  obtain ⟨b₁, b₂, b₃, -, -⟩ := hb
  refine ⟨h.data, ?_, ?_, ?_, ?_⟩
  · simpa [EntityState.attached] using hp
  · simp only [EntityState.attached, reduceCtorEq, false_iff]
    split
    · exact List.ne_nil_of_mem ‹_›
    · simp
  · simp only [EntityState.attached]
    have new : receipt.data = e.public.data ∧ receipt.length = e.public.length ∧
        receipt.digest = e.public.digest := ⟨b₁.trans hd.symm, b₂.trans hl, b₃.trans hg⟩
    split
    · exact h.anchors
    · intro a ha
      rcases List.mem_append.mp ha with ha | ha
      · exact h.anchors a ha
      · rw [List.mem_singleton.mp ha]
        exact new
  · simp only [EntityState.attached]
    split
    · exact h.distinct
    · rename_i hn
      rw [List.map_append, List.nodup_append]
      refine ⟨h.distinct, by simp, ?_⟩
      rintro k hk k' hk' rfl
      obtain ⟨a, ha, rfl⟩ := List.mem_map.mp hk
      have : a.key = receipt.key := by simpa using hk'
      exact hn (hs a ha this ▸ ha)

theorem released (h : e.Fits storageId ns id) (ha : e.public.anchors ≠ []) :
    Entity.Fits storageId ns id ⟨e.public.released, none⟩ :=
  ⟨h.data, by simp [EntityState.released], by simpa [EntityState.released] using ha, h.anchors,
    h.distinct⟩

theorem recalled {layout : String} (h : e.Fits storageId ns id) (ha : e.public.anchors ≠ []) :
    Entity.Fits storageId ns id ⟨e.public.recalled, some layout⟩ :=
  ⟨h.data, by simp [EntityState.recalled], by simpa [EntityState.recalled] using ha, h.anchors,
    h.distinct⟩

theorem imported {layout : String} {length : Nat} {digest : ContentDigest} :
    (LocalStorage.imported st id layout length digest).Fits st.storageId st.namespace id :=
  ⟨rfl, by simp [LocalStorage.imported], by simp [LocalStorage.imported],
    by simp [LocalStorage.imported], by simp [LocalStorage.imported]⟩

end Entity.Fits

section

variable [Crates] {ctx : OperationContext} {request : StepRequest} {value : StepValue}
  {fresh : String → Prop}

theorem State.Pins.insert {view : DataView} {id : String} {e e' : Entity} (h : st.Pins root view)
    (hl : st.entities.lookup id = some e) (hd : e'.public.data = e.public.data)
    (hp : e'.published = e.published) (hn : e'.public.length = e.public.length)
    (hg : e'.public.digest = e.public.digest) :
    State.Pins root { st with entities := st.entities.insert id e' } view := by
  obtain ⟨x, layout, hx, hxd, hxp, hs, hxl, hxg⟩ := h
  by_cases hi : view.data.entity.entity = id
  · rw [hi, hl] at hx
    cases hx
    exact ⟨e', layout, by simp [Table.lookup_insert, hi], hd.trans hxd, hp.trans hxp, hs,
      hxl.trans hn.symm, hxg.trans hg.symm⟩
  · exact ⟨x, layout, by simp [hi, hx], hxd, hxp, hs, hxl, hxg⟩

theorem State.Pins.insert_ne {view : DataView} {id : String} {e' : Entity}
    (h : st.Pins root view) (hi : view.data.entity.entity ≠ id) :
    State.Pins root { st with entities := st.entities.insert id e' } view := by
  obtain ⟨x, layout, hx, hr⟩ := h
  exact ⟨x, layout, by simp [hi, hx], hr⟩

theorem State.Reserves.insert_ne {owner : RecallOwner} {id : String} {e' : Entity}
    (h : st.Reserves root owner) (hi : owner.target.data.entity.entity ≠ id) :
    State.Reserves root { st with entities := st.entities.insert id e' } owner := by
  obtain ⟨x, hx, hr⟩ := h
  exact ⟨x, by simp [hi, hx], hr⟩

namespace State.Coherent

theorem name_eq (h : st.Coherent root) {id : String} {e : Entity}
    (he : st.entities.lookup id = some e) : e.public.data.entity.entity = id := by
  rw [(h.entity id e he).data]

theorem not_reserved (h : st.Coherent root) {id l : String} {e : Entity} {o : RecallOwner}
    (he : st.entities.lookup id = some e) (hp : e.published ≠ none)
    (ho : st.recalls.lookup l = some o) : o.target.data.entity.entity ≠ id := by
  rintro rfl
  obtain ⟨-, x, hx, -, hn, -⟩ := h.recall l o ho
  rw [he] at hx
  cases hx
  exact hp hn

theorem not_pinned (h : st.Coherent root) {id v : String} {e : Entity} {o : ViewOwner}
    (he : st.entities.lookup id = some e) (hp : e.published = none)
    (ho : st.views.lookup v = some o) : o.view.data.entity.entity ≠ id := by
  rintro rfl
  obtain ⟨-, x, layout, hx, -, hs, -⟩ := h.view v o ho
  rw [he] at hx
  cases hx
  rw [hp] at hs
  cases hs

theorem insert_entity (h : st.Coherent root) {id : String} {e' : Entity}
    (he' : e'.Fits st.storageId st.namespace id) {i : String} {x : Entity}
    (hx : (st.entities.insert id e').lookup i = some x) :
    x.Fits st.storageId st.namespace i := by
  rw [Table.lookup_insert] at hx
  split at hx
  · cases hx
    rename_i hi
    rw [hi]
    exact he'
  · exact h.entity i x hx

theorem prepareArchive (h : st.Coherent root) {view : DataView} {e : Entity} {layout : String}
    (he : st.entity view.data = .ok e) (hl : e.published = some layout)
    (hv : ¬ st.views.Any (fun v => v.view.data = view.data))
    (hn : view.length = e.public.length) (hg : view.digest = e.public.digest)
    (hs : view.source = endpoint (layoutDir root layout)) :
    State.Coherent root { st with views := st.views.insert view.viewId ⟨ctx, view⟩ } := by
  obtain ⟨-, hx, hd⟩ := entity_eq_ok.mp he
  rw [Table.not_any_iff] at hv
  refine ⟨h.entity, ?_, h.recall, ?_, h.oneRecall⟩
  · intro v o ho
    simp only [Table.lookup_insert] at ho
    split at ho
    · cases ho
      exact ⟨(by assumption : v = view.viewId).symm, e, layout, hx, hd, hl, hs, hn, hg⟩
    · exact h.view v o ho
  · intro v v' o o' ho ho' hdd
    simp only [Table.lookup_insert] at ho ho'
    split at ho <;> split at ho'
    · simp_all
    · cases ho
      exact (hv _ _ ho' hdd.symm).elim
    · cases ho'
      exact (hv _ _ ho hdd).elim
    · exact h.oneView v v' o o' ho ho' hdd

theorem commitArchive (h : st.Coherent root) {view : DataView} {receipt : ArchiveReceipt}
    {e : Entity} {completed : Table String Completed}
    (ho : st.views.lookup view.viewId = some ⟨ctx, view⟩) (he : st.entity view.data = .ok e)
    (hb : receipt.Binds view) (hs : ∀ a ∈ e.public.anchors, a.key = receipt.key → a = receipt) :
    State.Coherent root { st with
      entities := st.entities.insert view.data.entity.entity
        { e with «public» := e.public.attached receipt }
      views := st.views.erase view.viewId
      completed } := by
  obtain ⟨-, hx, hd⟩ := entity_eq_ok.mp he
  obtain ⟨-, y, layout, hy, -, hp, -, hl, hg⟩ := h.view _ _ ho
  obtain rfl : e = y := Option.some.inj (hx.symm.trans hy)
  have hpub : e.published ≠ none := by simp [hp]
  refine ⟨fun i x hi => h.insert_entity ?_ hi, ?_, ?_, ?_, h.oneRecall⟩
  · exact (h.entity _ _ hx).attached hb hd hl hg hs hpub
  · intro v o hv
    simp only [Table.lookup_erase] at hv
    split at hv
    · cases hv
    · exact ⟨(h.view v o hv).1, (h.view v o hv).2.insert hx rfl rfl rfl rfl⟩
  · intro l o hr
    exact ⟨(h.recall l o hr).1, (h.recall l o hr).2.insert_ne (h.not_reserved hx hpub hr)⟩
  · intro v v' o o' hv hv'
    simp only [Table.lookup_erase] at hv hv'
    split at hv
    · cases hv
    · split at hv'
      · cases hv'
      · exact h.oneView v v' o o' hv hv'

theorem release (h : st.Coherent root) {e : Entity} {layout : String} {gc : List String}
    {completed : Table String Completed} (he : st.entity e.public.data = .ok e)
    (ha : e.public.anchors ≠ []) (hv : ¬ st.views.Any (fun v => v.view.data = e.public.data))
    (hp : e.published = some layout) :
    State.Coherent root { st with
      entities := st.entities.insert e.public.data.entity.entity ⟨e.public.released, none⟩
      gc, completed } := by
  obtain ⟨-, hx, -⟩ := entity_eq_ok.mp he
  rw [Table.not_any_iff] at hv
  have hpub : e.published ≠ none := by simp [hp]
  refine ⟨fun i x hi => h.insert_entity ?_ hi, ?_, ?_, h.oneView, h.oneRecall⟩
  · exact (h.entity _ _ hx).released ha
  · intro v o ho
    refine ⟨(h.view v o ho).1, (h.view v o ho).2.insert_ne fun hi => ?_⟩
    obtain ⟨-, y, -, hy, hyd, -⟩ := h.view v o ho
    rw [hi, hx] at hy
    cases hy
    exact hv v o ho hyd.symm
  · intro l o hr
    exact ⟨(h.recall l o hr).1, (h.recall l o hr).2.insert_ne (h.not_reserved hx hpub hr)⟩

theorem prepareRecall (h : st.Coherent root) {e : Entity} {anchor : ArchiveReceipt}
    {layout : String} (he : st.entity e.public.data = .ok e) (hp : e.published = none)
    (ha : anchor ∈ e.public.anchors)
    (hr : ¬ st.recalls.Any (fun r => r.target.data = e.public.data)) :
    State.Coherent root { st with
      recalls := st.recalls.insert layout
        ⟨ctx, ⟨e.public.data, layout, anchor.key, endpoint (layoutDir root layout)⟩, anchor⟩ } := by
  obtain ⟨-, hx, -⟩ := entity_eq_ok.mp he
  rw [Table.not_any_iff] at hr
  refine ⟨h.entity, h.view, ?_, h.oneView, ?_⟩
  · intro l o ho
    simp only [Table.lookup_insert] at ho
    split at ho
    · cases ho
      exact ⟨(by assumption : l = layout).symm, e, hx, rfl, hp, ha, rfl, rfl⟩
    · exact h.recall l o ho
  · intro l l' o o' ho ho' hdd
    simp only [Table.lookup_insert] at ho ho'
    split at ho <;> split at ho'
    · simp_all
    · cases ho
      exact (hr _ _ ho' hdd.symm).elim
    · cases ho'
      exact (hr _ _ ho hdd).elim
    · exact h.oneRecall l l' o o' ho ho' hdd

theorem commitRecall (h : st.Coherent root) {target : RecallTarget} {anchor : ArchiveReceipt}
    {e : Entity} {completed : Table String Completed}
    (ho : st.recalls.lookup target.layoutId = some ⟨ctx, target, anchor⟩)
    (he : st.entity target.data = .ok e) (hp : e.published = none)
    (ha : anchor ∈ e.public.anchors) :
    State.Coherent root { st with
      entities := st.entities.insert target.data.entity.entity
        ⟨e.public.recalled, some target.layoutId⟩
      recalls := st.recalls.erase target.layoutId
      completed } := by
  obtain ⟨-, hx, hd⟩ := entity_eq_ok.mp he
  refine ⟨fun i x hi => h.insert_entity ?_ hi, ?_, ?_, h.oneView, ?_⟩
  · exact (h.entity _ _ hx).recalled (List.ne_nil_of_mem ha)
  · intro v o hv
    exact ⟨(h.view v o hv).1, (h.view v o hv).2.insert_ne (h.not_pinned hx hp hv)⟩
  · intro l o hr
    simp only [Table.lookup_erase] at hr
    split at hr
    · cases hr
    · rename_i hl
      refine ⟨(h.recall l o hr).1, (h.recall l o hr).2.insert_ne fun hi => hl ?_⟩
      obtain ⟨-, y, hy, hyd, -⟩ := h.recall l o hr
      rw [hi, hx] at hy
      cases hy
      exact h.oneRecall l target.layoutId o _ hr ho (hyd.symm.trans hd)
  · intro l l' o o' hr hr'
    simp only [Table.lookup_erase] at hr hr'
    split at hr
    · cases hr
    · split at hr'
      · cases hr'
      · exact h.oneRecall l l' o o' hr hr'

theorem effect (h : st.Coherent root) (he : Effect root fresh st ctx request value next) :
    next.Coherent root := by
  cases he with
  | prepareArchive he hl _ hv hn hg hs => exact h.prepareArchive he hl hv hn hg hs
  | commitArchive ho he hb hs _ => exact h.commitArchive ho he hb hs
  | release he ha hv _ hp _ => exact h.release he ha hv hp
  | prepareRecall he hp ha _ hr => exact h.prepareRecall he hp ha hr
  | commitRecall ho he hp ha _ => exact h.commitRecall ho he hp ha

theorem «import» (h : st.Coherent root) {id : String} {layout : String} {length : Nat}
    {digest : ContentDigest} (hi : id ∉ st.entities) :
    State.Coherent root { st with
      entities := st.entities.insert id
        (LocalStorage.imported st id layout length digest) } := by
  have absent : st.entities.lookup id = none := Finmap.lookup_eq_none.mpr hi
  refine ⟨fun i x hx => h.insert_entity .imported hx, ?_, ?_, h.oneView, h.oneRecall⟩
  · intro v o hv
    refine ⟨(h.view v o hv).1, (h.view v o hv).2.insert_ne ?_⟩
    rintro rfl
    obtain ⟨-, y, -, hy, -⟩ := h.view v o hv
    simp [absent] at hy
  · intro l o hr
    refine ⟨(h.recall l o hr).1, (h.recall l o hr).2.insert_ne ?_⟩
    rintro rfl
    obtain ⟨-, y, hy, -⟩ := h.recall l o hr
    simp [absent] at hy

theorem new {a b : String} : (State.new a b : State κ).Coherent root := by
  refine ⟨?_, ?_, ?_, ?_, ?_⟩ <;> intros <;> simp_all [State.new]

theorem record [DecidableEq κ] (h : st.Coherent root) {k : κ} {saved : SavedStep κ} :
    (st.record k saved).Coherent root := ⟨h.entity, h.view, h.recall, h.oneView, h.oneRecall⟩

theorem closed [DecidableEq κ] [KeyHash κ] :
    Closed root (State.Coherent root : State κ → Prop) := by
  intro fresh st request answer next h hs
  cases hs with
  | failed => exact h.record
  | done _ _ he => exact (h.effect he).record
  | imported _ hi _ => exact h.import hi
  | collected => exact ⟨h.entity, h.view, h.recall, h.oneView, h.oneRecall⟩

end State.Coherent

/-- The content of an entity stays, and it gains at most the anchor that the request attaches. -/
structure Entity.Descends (request : Request) (e₀ e : Entity) : Prop where
  length : e.public.length = e₀.public.length
  digest : e.public.digest = e₀.public.digest
  anchors : ∀ r ∈ e.public.anchors, r ∈ e₀.public.anchors ∨
    ∃ ctx view, request = .step ctx (.commitArchive view r)

omit [Crates] in
theorem Entity.Descends.refl {request : Request} (e : Entity) : e.Descends request e :=
  ⟨rfl, rfl, fun _ h => .inl h⟩

/-- The entities of `next` are those of `st`, and one that the request imports. -/
structure State.Inherits (request : Request) (st next : State κ) (id : String) : Prop where
  origin : ∀ e, next.entities.lookup id = some e →
    (∃ e₀, st.entities.lookup id = some e₀ ∧ e₀.Descends request e) ∨
    ∃ layout bytes, request = .import id bytes ∧ st.entities.lookup id = none ∧
      e = LocalStorage.imported st id layout bytes.length (digestOf bytes)
  stays : ∀ e₀, st.entities.lookup id = some e₀ → next.entities.lookup id ≠ none

theorem Settles.inherits [DecidableEq κ] [KeyHash κ] {request : Request} {answer : HsmResult Reply}
    (h : Settles root fresh st request answer (some next)) {id : String} :
    State.Inherits request st next id := by
  have same : next.entities = st.entities → State.Inherits request st next id := by
    intro he
    constructor <;> rw [he]
    · exact fun e hl => .inl ⟨e, hl, .refl e⟩
    · exact fun e₀ hl => by simp [hl]
  have changed : ∀ {name e₀ x}, next.entities = st.entities.insert name x →
      st.entities.lookup name = some e₀ → e₀.Descends request x →
      State.Inherits request st next id := by
    intro name e₀ x he hl hd
    constructor <;> rw [he]
    · intro e hx
      rw [Table.lookup_insert] at hx
      split at hx
      · rename_i hn
        cases hx
        exact .inl ⟨e₀, hn ▸ hl, hd⟩
      · exact .inl ⟨e, hx, .refl e⟩
    · intro e₀ h₀
      rw [Table.lookup_insert]
      split <;> simp [h₀]
  cases h with
  | failed => exact same rfl
  | done _ _ ha =>
    cases ha with
    | prepareArchive => exact same rfl
    | commitArchive _ hx =>
      refine changed rfl (State.entity_eq_ok.mp hx).2.1 ⟨rfl, rfl, fun r hr => ?_⟩
      simp only [EntityState.attached] at hr
      split at hr
      · exact .inl hr
      · rcases List.mem_append.mp hr with hr | hr
        · exact .inl hr
        · exact .inr ⟨_, _, by rw [List.mem_singleton.mp hr]⟩
    | release hx => exact changed rfl (State.entity_eq_ok.mp hx).2.1 ⟨rfl, rfl, fun _ => .inl⟩
    | prepareRecall => exact same rfl
    | commitRecall _ hx =>
      exact changed rfl (State.entity_eq_ok.mp hx).2.1 ⟨rfl, rfl, fun _ => .inl⟩
  | @imported name bytes layout _ hi =>
    have absent := Finmap.lookup_eq_none.mpr hi
    refine ⟨fun e hx => ?_, fun e₀ h₀ => ?_⟩
    · rw [Table.lookup_insert] at hx
      split at hx
      · rename_i hn
        subst hn
        cases hx
        exact .inr ⟨layout, bytes, rfl, absent, rfl⟩
      · exact .inl ⟨e, hx, .refl e⟩
    · rw [Table.lookup_insert]
      split <;> simp [h₀]
  | collected => exact same rfl

/-- A view and a recall never exist for the same content. -/
theorem State.Coherent.exclusive (h : st.Coherent root) {v l : String} {o : ViewOwner}
    {o' : RecallOwner} (hv : st.views.lookup v = some o) (hr : st.recalls.lookup l = some o') :
    o.view.data ≠ o'.target.data := by
  intro hd
  obtain ⟨-, e, layout, he, -, hp, -⟩ := h.view v o hv
  exact h.not_reserved he (by simp [hp]) hr (by rw [hd])

/-! ## Active recalls -/

/-- The recall is active and its entity is `e`. -/
def State.Shields (st : State κ) (owner : RecallOwner) (e : Entity) : Prop :=
  st.recalls.lookup owner.target.layoutId = some owner ∧
    st.entities.lookup owner.target.data.entity.entity = some e

/-- The recall has committed: its step is recorded with a success. -/
def State.Recalled [DecidableEq κ] [KeyHash κ] (st : State κ) (owner : RecallOwner) : Prop :=
  ∃ evidence result, st.steps.lookup (key (.step owner.context .commitRecall)) =
    some ⟨key (.request owner.context (.commitRecall owner.target evidence)), .ok (.state result)⟩

def State.Allotted (i : String → Bool) (st : State κ) : Prop :=
  ∀ l o, st.recalls.lookup l = some o → i l = true

/-- While a recall is active only its own commit touches it or its entity. -/
theorem State.Shields.effect {owner : RecallOwner} {e : Entity} (h : st.Shields owner e)
    (hc : st.Coherent root) (hf : ¬ fresh owner.target.layoutId)
    (he : Effect root fresh st ctx request value next) :
    next.Shields owner e ∨ ctx = owner.context ∧ ∃ evidence result,
      request = .commitRecall owner.target evidence ∧ value = .state result := by
  obtain ⟨ho, hx⟩ := h
  obtain ⟨-, y, hy, hyd, hn, -⟩ := hc.recall _ _ ho
  obtain rfl : e = y := Option.some.inj (hx.symm.trans hy)
  cases he with
  | prepareArchive => exact .inl ⟨ho, hx⟩
  | @commitArchive view receipt e' hv he' =>
    obtain ⟨-, hx', -⟩ := entity_eq_ok.mp he'
    obtain ⟨-, z, layout, hz, -, hp, -⟩ := hc.view _ _ hv
    obtain rfl : e' = z := Option.some.inj (hx'.symm.trans hz)
    have := hc.not_reserved hx' (by simp [hp]) ho
    exact .inl ⟨ho, by simpa [Table.lookup_insert, this] using hx⟩
  | @release e' layout he' _ _ _ hp _ =>
    obtain ⟨-, hx', -⟩ := entity_eq_ok.mp he'
    have := hc.not_reserved hx' (by simp [hp]) ho
    exact .inl ⟨ho, by simpa [Table.lookup_insert, this] using hx⟩
  | @prepareRecall e' anchor layout _ _ _ hu _ =>
    have : owner.target.layoutId ≠ layout := fun h => hf (h ▸ hu)
    exact .inl ⟨by simpa [Table.lookup_insert, this] using ho, hx⟩
  | @commitRecall target anchor e' ho' he' hp' _ _ =>
    obtain ⟨-, hx', hd'⟩ := entity_eq_ok.mp he'
    by_cases hl : owner.target.layoutId = target.layoutId
    · rw [hl, ho'] at ho
      obtain rfl := Option.some.inj ho
      exact .inr ⟨rfl, _, _, rfl, rfl⟩
    · refine .inl ⟨by simpa [Table.lookup_erase, hl] using ho, ?_⟩
      have : owner.target.data.entity.entity ≠ target.data.entity.entity := by
        intro hi
        rw [← hi, hx] at hx'
        cases hx'
        exact hl (hc.oneRecall _ _ _ _ ho ho' (hyd.symm.trans hd'))
      simpa [Table.lookup_insert, this] using hx

theorem Effect.steps (he : Effect root fresh st ctx request value next) :
    next.steps = st.steps := by
  cases he <;> rfl

theorem State.Allotted.effect {i i' : String → Bool} (h : st.Allotted i)
    (hi : ∀ u, i u = true → i' u = true) (hf : ∀ u, fresh u → i' u = true)
    (he : Effect root fresh st ctx request value next) : next.Allotted i' := by
  have old : ∀ l o, st.recalls.lookup l = some o → i' l = true := fun l o ho => hi l (h l o ho)
  cases he with
  | prepareRecall _ _ _ hu _ =>
    intro l o ho
    simp only [Table.lookup_insert] at ho
    split at ho
    · rename_i hl
      exact hl ▸ hf _ hu
    · exact old l o ho
  | commitRecall =>
    intro l o ho
    simp only [Table.lookup_erase] at ho
    split at ho
    · cases ho
    · exact old l o ho
  | _ => exact old

variable [DecidableEq κ] [KeyHash κ]

omit [Crates] in
theorem State.Recalled.record {owner : RecallOwner} {k : κ} {saved : SavedStep κ}
    (h : st.Recalled owner) (hk : st.steps.lookup k = none) :
    (st.record k saved).Recalled owner := by
  obtain ⟨evidence, result, h⟩ := h
  refine ⟨evidence, result, ?_⟩
  have : key (.step owner.context .commitRecall) ≠ k := by
    rintro rfl
    simp [h] at hk
  simpa [State.record, Table.lookup_insert, this] using h

/-- What is kept from the moment a recall is seen active. -/
def State.Shielding (root : Dir) (owner : RecallOwner) (e : Entity) (i : String → Bool)
    (st : State κ) : Prop :=
  st.Coherent root ∧ st.Allotted i ∧ (st.Shields owner e ∨ st.Recalled owner)

theorem State.Shielding.stable {π : Policy (FileName κ) (Content κ)} (hπ : π.Fresh)
    {owner : RecallOwner} {e : Entity} : Stable π root (State.Shielding root owner e) where
  mono hi h := ⟨h.1, fun l o ho => hi l (h.2.1 l o ho), h.2.2⟩
  call {i i' st request answer next} hi h hs := by
    obtain ⟨hc, ha, hr⟩ := h
    have hc' := State.Coherent.closed _ _ _ _ _ hc hs
    have kept : st.Allotted i' := fun l o ho => hi l (ha l o ho)
    cases hs with
    | failed _ hk =>
      exact ⟨hc', kept, hr.imp (fun h => h) fun h => h.record hk⟩
    | @done ctx request value next hq hk he =>
      have ha' : next.Allotted i' := ha.effect hi (fun _ hu => hu.2) he
      refine ⟨hc', ha', ?_⟩
      rcases hr with hr | hr
      · have hf : ¬ Given π i i' owner.target.layoutId := fun hu => by
          have := hu.unissued hπ
          simp [ha _ _ hr.1] at this
        rcases hr.effect hc hf he with hr | ⟨rfl, evidence, result, rfl, rfl⟩
        · exact .inl hr
        · exact .inr ⟨evidence, result, by simp [State.record, StepRequest.name]⟩
      · refine .inr (State.Recalled.record ?_ ?_)
        · simpa [State.Recalled, he.steps] using hr
        · rw [he.steps]
          exact hk
    | @imported id bytes layout _ hid _ =>
      refine ⟨hc', kept, hr.imp (fun h => ⟨h.1, ?_⟩) fun h => h⟩
      have : owner.target.data.entity.entity ≠ id := by
        rintro rfl
        exact hid (Finmap.lookup_isSome.mp (by simp [h.2]))
      simpa [Table.lookup_insert, this] using h.2
    | collected => exact ⟨hc', kept, hr⟩

/-! ## Every reachable world -/

theorem World.Reachable.coherent {π : Policy (FileName κ) (Content κ)} {w : World κ}
    (h : w.Reachable π root) : w.Keeps π root fun i st => st.Coherent root ∧ st.Allotted i := by
  refine h.keeps ⟨fun hi h => ⟨h.1, fun l o ho => hi l (h.2 l o ho)⟩, ?_⟩ ?_
  · intro i i' st request answer next hi h hs
    refine ⟨State.Coherent.closed _ _ _ _ _ h.1 hs, ?_⟩
    have kept : st.Allotted i' := fun l o ho => hi l (h.2 l o ho)
    cases hs with
    | @done _ _ _ next _ _ he =>
      have ha' : next.Allotted i' := h.2.effect hi (fun _ hu => hu.2) he
      exact ha'
    | _ => exact kept
  · intro i a b
    refine ⟨.new, fun l o ho => ?_⟩
    simp [State.new] at ho

/-- In every reachable world every version of the metadata is coherent, no content has a
view and a recall, and an active recall shields its entity until it commits. -/
theorem residency_invariant {π : Policy (FileName κ) (Content κ)} {w : World κ}
    (h : w.Reachable π root) :
    (∀ st, w.Version root st → st.Coherent root ∧
      ∀ v l o o', st.views.lookup v = some o → st.recalls.lookup l = some o' →
        o.view.data ≠ o'.target.data) ∧
    (π.Fresh → ∀ self owner e, w.handle = some self → self.state.Shields owner e →
      ∀ w', World.Steps π root w w' → ∀ st, w'.Version root st →
        st.Shields owner e ∨ st.Recalled owner) := by
  refine ⟨fun st hv => ?_, fun hπ self owner e hw hs w' hw' st hv => ?_⟩
  · have hc := (h.coherent.version hv).1
    exact ⟨hc, fun _ _ _ _ => hc.exclusive⟩
  · have hk := hw'.since_sighted h.coherent hw (State.Shielding.stable hπ)
      fun i hq => ⟨hq.1, hq.2, .inl hs⟩
    exact (hk.version hv).2.2

end

open Reference in
/-- While the entity of the example run is being recalled nothing touches it. -/
theorem residency_invariant_recalling : ∃ w self, recalling = some w ∧ w.handle = some self ∧
    self.state.Coherent ["s"] ∧ self.state.Shields recallOwner ⟨offline, none⟩ ∧
    ∀ w', World.Steps anything ["s"] w w' → ∀ st, w'.Version ["s"] st →
      st.Shields recallOwner ⟨offline, none⟩ ∨ st.Recalled recallOwner := by
  obtain ⟨w, self, hw, hs, h, -, ho, he, -⟩ := recalling_reachable
  obtain ⟨coherent, shielded⟩ := residency_invariant h
  exact ⟨w, self, hw, hs, (coherent _ (.cached hs rfl)).1, ⟨ho, he⟩,
    shielded anything_fresh self recallOwner _ hs ⟨ho, he⟩⟩

end HsmRs
