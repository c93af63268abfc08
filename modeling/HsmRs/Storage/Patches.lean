import HsmRs.Lib.Locality
import HsmRs.Storage.World

/-! # What a step changes in the metadata

A step changes at most one entry of each table, and these belong to its entity and its
operation. What belongs to another entity and another operation is not seen to change,
and changes of different entities can be made in either order.
-/

namespace HsmRs

variable {κ : Type}

/-- The content a request is about. -/
def StepRequest.data : StepRequest → DataKey
  | prepareArchive data => data
  | commitArchive view _ => view.data
  | release expected => expected.data
  | prepareRecall expected _ => expected.data
  | commitRecall target _ => target.data

/-- One edit of each table, and layouts put up for removal. -/
structure Patch (κ : Type) where
  entity : Option (String × Option Entity)
  view : Option (String × Option ViewOwner)
  «recall» : Option (String × Option RecallOwner)
  step : Option (κ × Option (SavedStep κ))
  completed : Option (String × Option Completed)
  gc : List String

namespace Patch

def empty : Patch κ := ⟨none, none, none, none, none, []⟩

variable [DecidableEq κ]

def apply (p : Patch κ) (st : State κ) : State κ :=
  { st with
    entities := st.entities.edit p.entity
    views := st.views.edit p.view
    recalls := st.recalls.edit p.recall
    steps := st.steps.edit p.step
    completed := st.completed.edit p.completed
    gc := st.gc ++ p.gc }

@[simp] theorem empty_apply (st : State κ) : (empty : Patch κ).apply st = st := by
  simp [apply, empty, Table.edit]

def recording (p : Patch κ) (k : κ) (saved : SavedStep κ) : Patch κ :=
  { p with step := some (k, some saved) }

theorem recording_apply {p : Patch κ} (h : p.step = none) (k : κ) (saved : SavedStep κ)
    (st : State κ) : (p.recording k saved).apply st = (p.apply st).record k saved := by
  simp [apply, recording, State.record, h, Table.edit]

end Patch

/-- The same metadata, but for the order in which layouts are up for removal. -/
structure State.Like (st st' : State κ) : Prop where
  same : st' = { st with gc := st'.gc }
  gc : st.gc.Perm st'.gc

theorem State.Owns.key_eq {st : State κ} {a b : EntityKey} (h : st.Owns a) (h' : st.Owns b)
    (he : a.entity = b.entity) : a = b := by
  obtain ⟨ha, hb, -⟩ := h
  obtain ⟨ha', hb', -⟩ := h'
  cases a
  cases b
  simp_all

variable [DecidableEq κ] [KeyHash κ] {entity entity' : EntityKey} {op op' : String}
  {N N' : String → Prop} {st st' : State κ} {p p' : Patch κ}

/-- The patch is about the entity and the operation, with new names of `N`. -/
structure Patch.Confined (entity : EntityKey) (op : String) (N : String → Prop) (st : State κ)
    (p : Patch κ) : Prop where
  entities : ∀ id, Table.Edits p.entity id → id = entity.entity ∧ st.Owns entity
  views : Table.Guards (fun o : ViewOwner => o.view.data.entity = entity) N st.views p.view
  recalls : Table.Guards (fun o : RecallOwner => o.target.data.entity = entity)
    N st.recalls p.recall
  steps : ∀ k, Table.Edits p.step k → ∃ ctx name, ctx.operationId = op ∧ k = key (.step ctx name)
  completed : ∀ i, Table.Edits p.completed i → i = op

/-- What the entity and the operation see of the metadata is the same. -/
structure State.Unseen (entity : EntityKey) (op : String) (st st' : State κ) : Prop where
  storageId : st'.storageId = st.storageId
  «namespace» : st'.namespace = st.namespace
  entities : st.Owns entity → st'.entities.lookup entity.entity = st.entities.lookup entity.entity
  views : ∀ data, data.entity = entity →
    (st'.views.Any (fun v => v.view.data = data) ↔ st.views.Any fun v => v.view.data = data)
  recalls : ∀ data, data.entity = entity →
    (st'.recalls.Any (fun r => r.target.data = data) ↔ st.recalls.Any fun r => r.target.data = data)
  steps : ∀ ctx name, ctx.operationId = op →
    st'.steps.lookup (key (.step ctx name)) = st.steps.lookup (key (.step ctx name))
  completed : st'.completed.lookup op = st.completed.lookup op

def State.Unnamed (N : String → Prop) (st : State κ) : Prop :=
  ∀ u, N u → st.views.lookup u = none ∧ st.recalls.lookup u = none

namespace Patch.Confined

theorem unseen (h : p.Confined entity' op' N st) (inj : Function.Injective (key : Keyed → κ))
    (he : entity ≠ entity') (ho : op ≠ op') (new : st.Unnamed N) :
    st.Unseen entity op (p.apply st) where
  storageId := rfl
  «namespace» := rfl
  entities owns := Table.lookup_edit_of_not fun hk => by
    obtain ⟨hid, owns'⟩ := h.entities _ hk
    exact he (owns.key_eq owns' hid)
  views data hd := h.views.any_iff (fun k hk => (new k hk).1) fun v hv hm => by
    rw [hv, hd] at hm
    exact he hm
  recalls data hd := h.recalls.any_iff (fun k hk => (new k hk).2) fun r hr hm => by
    rw [hr, hd] at hm
    exact he hm
  steps ctx name hc := Table.lookup_edit_of_not fun hk => by
    obtain ⟨ctx', name', hop, hkey⟩ := h.steps _ hk
    have := inj hkey
    simp only [Keyed.step.injEq] at this
    exact ho (hc.symm.trans ((congrArg _ this.1).trans hop))
  completed := Table.lookup_edit_of_not fun hk => ho (h.completed _ hk)

/-- Changes of different entities by different operations can be made in either order. -/
theorem comm (h : p.Confined entity op N st) (h' : p'.Confined entity' op' N' st)
    (inj : Function.Injective (key : Keyed → κ)) (he : entity ≠ entity') (ho : op ≠ op')
    (hN : ∀ u, N u → ¬ N' u) (new : st.Unnamed fun u => N u ∨ N' u) :
    (p'.apply (p.apply st)).Like (p.apply (p'.apply st)) := by
  have entities : (st.entities.edit p.entity).edit p'.entity =
      (st.entities.edit p'.entity).edit p.entity := Table.edit_comm fun k hk hk' => by
    obtain ⟨rfl, owns⟩ := h.entities k hk
    obtain ⟨hid, owns'⟩ := h'.entities _ hk'
    exact he (owns.key_eq owns' hid)
  have views : (st.views.edit p.view).edit p'.view = (st.views.edit p'.view).edit p.view :=
    Table.edit_comm (h.views.apart h'.views (fun k hk => (new k hk).1) hN
    fun _ hv hv' => he (hv.symm.trans hv'))
  have recalls : (st.recalls.edit p.recall).edit p'.recall =
      (st.recalls.edit p'.recall).edit p.recall :=
        Table.edit_comm (h.recalls.apart h'.recalls (fun k hk => (new k hk).2) hN
    fun _ hv hv' => he (hv.symm.trans hv'))
  have steps : (st.steps.edit p.step).edit p'.step = (st.steps.edit p'.step).edit p.step :=
      Table.edit_comm fun k hk hk' => by
    obtain ⟨ctx, name, rfl, rfl⟩ := h.steps k hk
    obtain ⟨ctx', name', rfl, hkey⟩ := h'.steps _ hk'
    have := inj hkey
    simp only [Keyed.step.injEq] at this
    exact ho (congrArg _ this.1)
  have completed : (st.completed.edit p.completed).edit p'.completed =
      (st.completed.edit p'.completed).edit p.completed := Table.edit_comm fun k hk hk' =>
        ho ((h.completed k hk).symm.trans (h'.completed k hk'))
  refine ⟨?_, ?_⟩
  · simp only [Patch.apply, entities, views, recalls, steps, completed]
  · simp only [Patch.apply, List.append_assoc]
    exact List.Perm.append_left _ List.perm_append_comm

end Patch.Confined

end HsmRs
