import HsmRs.System.Archiving

/-! # The life of an entity

The engine over local stores on a machine that fails no operation. An archive of an
entity at rest leaves it dual with an object that can be read back, a release of it
leaves it offline, and a recall publishes the bytes that were archived.
-/

namespace HsmRs

variable {κ : Type} [DecidableEq κ] [KeyHash κ] [Crates] {π : Policy (FileName κ) (Content κ)}
  {s : Disk (FileName κ) (Content κ)} {stores : Stores κ}

/-! ## Archive -/

section

variable {roots : Roots} {ctx : OperationContext} {data : DataKey} {place : ArchiveKey}
  {view : DataView} {layout : String} {b : Bytes} {e : Entity}

/-- An unused operation archives an online entity at rest under a vacant key. -/
theorem HsmEngine.archive_succeeds (inj : Function.Injective (key : Keyed → κ)) (kind : π.Kind)
    (h : stores.Serving roots s) (named : stores.archive.id ≠ "")
    (qualified : LocalStorage.qualify ctx = .ok ())
    (unused : stores.storage.state.Unused ctx.operationId)
    (rest : stores.storage.state.Resting data e) (published : e.published = some layout)
    (holds : s.Holds (layoutDir stores.storage.root layout) b) (length : e.public.length = b.length)
    (digest : e.public.digest = digestOf b) (vacant : stores.archive.Vacant ctx place s)
    (free : ∀ a ∈ e.public.anchors, a.key ≠ place) :
    Succeeds (fsMachine π) (tried ((HsmEngine.archive ctx data place).locally stores)) s fun x s' =>
      ∃ receipt payload, x.1 = e.public.attached receipt ∧
        receipt.Attests data place b.length (digestOf b) ∧
        stores.archive.Archived receipt b payload s' ∧ x.2.archive = stores.archive ∧
        x.2.Serving roots s' ∧
        x.2.storage.state.Resting data { e with «public» := e.public.attached receipt } ∧
        (∀ op, ctx.operationId ≠ op → stores.storage.state.Unused op →
          x.2.storage.state.Unused op) ∧
        s'.dir (layoutDir x.2.storage.root layout) = true := by
  let w : Archival := ⟨roots, stores.archive.id, ctx, data, place, e, layout, b, named, qualified,
    published, length, digest, free⟩
  have ha : w.archive = stores.archive := by rw [Archival.archive, ← h.root']
  have running : w.errand.Running stores s :=
    ⟨h, rfl, h.root ▸ holds, .inl (.fresh rest unused (ha ▸ vacant))⟩
  refine (Archival.archive_endures inj kind running).mono (fun _ _ => trivial) ?_
  rintro ⟨result, stores'⟩ s' after
  obtain ⟨receipt, he, finished⟩ := after.finished
  obtain ⟨payload, archived⟩ := finished.archived
  have hroot : stores'.storage.root = roots.storage := after.running.root
  exact ⟨receipt, payload, he, finished.attests, ha ▸ archived, after.archive,
    after.running.toServing,
    finished.rest, after.unused, hroot ▸ after.running.stage.1.dir⟩

/-! ## Release and recall -/

/-- An unused operation releases a dual entity at rest that the archive verifies. -/
theorem HsmEngine.release_succeeds (inj : Function.Injective (key : Keyed → κ)) (kind : π.Kind)
    (h : stores.Serving roots s) (qualified : LocalStorage.qualify ctx = .ok ())
    (unused : stores.storage.state.Unused ctx.operationId)
    (rest : stores.storage.state.Resting e.public.data e) (published : e.published = some layout)
    (there : s.dir (layoutDir stores.storage.root layout) = true)
    (attests : ∀ a ∈ e.public.anchors,
      a.Attests e.public.data a.key e.public.length e.public.digest)
    (verifies : stores.archive.Verifies e.public.anchors s) :
    Succeeds (fsMachine π) (tried ((HsmEngine.release ctx e.public).locally stores)) s fun x s' =>
      x.1 = e.public.released ∧ x.2.archive = stores.archive ∧ x.2.Serving roots s' ∧
        x.2.storage.state.Resting e.public.data ⟨e.public.released, none⟩ ∧
        (∀ op, ctx.operationId ≠ op → stores.storage.state.Unused op →
          x.2.storage.state.Unused op) ∧
        ∀ receipt b payload, stores.archive.Archived receipt b payload s →
          stores.archive.Archived receipt b payload s' := by
  have smooth := kind.toSmooth
  obtain ⟨⟨⟩, validate, -⟩ := HsmResult.bind_eq_ok.mp qualified
  obtain ⟨owns, current, -⟩ := State.entity_eq_ok.mp rest.current
  have anchored : e.public.anchors ≠ [] := fun hn => by
    rw [hn] at verifies
    exact LocalArchive.not_verifies_nil verifies
  unfold release
  refine Workflow.endures_check validate (Workflow.endures_bind (Workflow.endures_completed trivial
    (LocalStorage.completed_none h.storage.healthy qualified unused.completed owns) ?_))
  dsimp only
  refine Workflow.endures_bind (Workflow.endures_inspectEntity (r := e.public) trivial
    (LocalStorage.inspect_eq_ok.mpr ⟨h.storage.healthy, owns, e, current, rfl⟩) ?_)
  refine Workflow.endures_guard (by simp) (Workflow.endures_guard anchored ?_)
  refine Workflow.endures_bind (Workflow.succeeds_of_runs fun r t s₁ hr => ?_)
  obtain ⟨rfl, f₁, -, hv, k₁⟩ := verifyAnchors_runs smooth
    (fun a ha => checkReceipt_eq_ok.mpr (attests a ha)) hr
  obtain rfl := hv.mpr verifies
  refine ⟨true, rfl, ?_⟩
  dsimp only
  have hs₁ := h.frame f₁ (fun _ => id) (fun _ => id) (k₁ rfl)
  refine Workflow.endures_storage (c := .release ctx e.public) (g := id)
    (p := t.storage.release ctx e.public) (Prog.bind_ret _)
    ((LocalStorage.release_succeeds smooth hs₁.storage qualified unused rest anchored published
      (f₁.dirs there)).mono ?_)
  rintro ⟨result, storage⟩ s₂ ⟨he, turned⟩
  dsimp only at he turned ⊢
  have hs₂ := hs₁.turned turned rfl
  have kept := fun receipt b payload (ha : t.archive.Archived receipt b payload s) =>
    hs₁.archived turned (ha.frame f₁ id id)
  obtain rfl := turned.handle
  refine ⟨he, rfl, hs₂, ?_, fun op hne hu => ?_, kept⟩
  · exact rest.turn rfl rfl rfl rfl (fun _ _ ho => ho) fun _ _ ho => ho
  · refine hu.record inj hne ?_ rfl
    simp only [Table.lookup_insert]
    exact if_neg (Ne.symm hne)

/-- An unused operation recalls an offline entity at rest from an anchor whose object the archive
has, and publishes that object's bytes. -/
theorem HsmEngine.recall_succeeds (inj : Function.Injective (key : Keyed → κ)) (kind : π.Kind)
    {anchor : ArchiveReceipt} {payload : Dir} (h : stores.Serving roots s)
    (qualified : LocalStorage.qualify ctx = .ok ())
    (unused : stores.storage.state.Unused ctx.operationId)
    (rest : stores.storage.state.Resting e.public.data e) (offline : e.public.residency = .offline)
    (published : e.published = none)
    (selected : e.public.anchors.find? (fun a => a.key = place) = some anchor)
    (attests : anchor.Attests e.public.data place e.public.length e.public.digest)
    (archived : stores.archive.Archived anchor b payload s) :
    Succeeds (fsMachine π) (tried ((HsmEngine.recall ctx e.public place).locally stores)) s
      fun x s' =>
      ∃ layout, x.1 = e.public.recalled ∧ x.2.archive = stores.archive ∧ x.2.Serving roots s' ∧
        x.2.storage.state.Resting e.public.data ⟨e.public.recalled, some layout⟩ ∧
        s'.Holds (layoutDir x.2.storage.root layout) b ∧
        ∀ op, ctx.operationId ≠ op → stores.storage.state.Unused op →
          x.2.storage.state.Unused op := by
  have smooth := kind.toSmooth
  obtain ⟨⟨⟩, validate, -⟩ := HsmResult.bind_eq_ok.mp qualified
  obtain ⟨owns, -, -⟩ := State.entity_eq_ok.mp rest.current
  have anchored : anchor ∈ e.public.anchors := List.mem_of_find?_eq_some selected
  obtain rfl := attests.key_eq
  unfold «recall»
  refine Workflow.endures_check validate (Workflow.endures_bind (Workflow.endures_completed trivial
    (LocalStorage.completed_none h.storage.healthy qualified unused.completed owns) ?_))
  dsimp only
  refine Workflow.endures_guard (by simp [offline]) ?_
  rw [selected]
  dsimp only
  refine Workflow.endures_check (checkReceipt_eq_ok.mpr attests) ?_
  refine Workflow.endures_bind (Workflow.endures_backend (c := .inspect anchor.key) (g := id) ?_)
  refine Succeeds.mono (LocalArchive.inspect_endures smooth (fun _ _ => trivial) archived) ?_
  rintro _ s₁ ⟨rfl, f₁, k₁⟩
  dsimp only
  refine Workflow.endures_guard (by simp) ?_
  have hs₁ := h.frame f₁ (fun _ => id) (fun _ => id) k₁
  have archived₁ := archived.frame f₁ id id
  refine Workflow.endures_bind (Workflow.endures_storage (c := .prepareRecall ctx e.public anchor)
    (g := id) (p := stores.storage.prepareRecall ctx e.public anchor) (Prog.bind_ret _)
    (Succeeds.mono (LocalStorage.prepareRecall_endures smooth (fun _ _ _ _ => trivial) trivial
      (fun _ _ _ _ _ _ _ _ => trivial) hs₁.storage qualified unused rest published anchored) ?_))
  rintro ⟨target, storage⟩ s₂ ⟨layout, ht, there, unsealed, turned⟩
  dsimp only at ht turned ⊢
  subst ht
  have hs₂ := hs₁.turned turned rfl
  have archived₂ := hs₁.archived turned archived₁
  obtain rfl := turned.handle
  refine Workflow.endures_bind (Workflow.endures_backend (c := .open anchor) (g := id) ?_)
  refine Succeeds.mono (LocalArchive.openReceipt_endures smooth (fun _ _ => trivial) archived₂) ?_
  rintro _ s₃ ⟨rfl, f₃, k₃⟩
  dsimp only
  have hs₃ := hs₂.frame f₃ (fun _ => id) (fun _ => id) k₃
  have archived₃ := archived₂.frame f₃ id id
  have unsealed₃ := f₃.absent (n := .sealed) id unsealed
  have distinct : payload ≠ layoutDir stores.storage.root layout := by
    rintro rfl
    have below := archived.below
    rw [h.root, h.root'] at below
    exact Roots.off below suffix_layoutDir
  refine Workflow.endures_bind
    (Workflow.endures_copy (Succeeds.mono (copy_endures smooth kind.copies
    (fun _ _ => trivial) validate distinct archived₃.holds (f₃.dirs there) unsealed₃
    hs₃.storage.idle) ?_))
  rintro _ s₄ ⟨rfl, holds₄, f₄, k₄⟩
  dsimp only
  have hs₄ := hs₃.frame f₄ (fun _ => ⟨id, by simp⟩) (fun _ => ⟨id, by simp⟩) k₄
  have length : b.length = e.public.length := archived.length.symm.trans attests.length_eq
  have digest : digestOf b = e.public.digest := archived.digest.symm.trans attests.digest_eq
  refine Workflow.endures_guard (by simp [length, digest]) ?_
  refine Workflow.endures_storage (c := .commitRecall ctx _ _) (g := id)
    (p := LocalStorage.commitRecall _ ctx _ _) (Prog.bind_ret _) ?_
  refine Succeeds.mono (LocalStorage.commitRecall_endures smooth (fun _ _ _ _ => trivial) trivial
    (fun _ _ => trivial) (fun _ _ _ _ _ => trivial) hs₄.storage qualified ?_ ?_
      rest.current published
    anchored unused.admits rfl holds₄ length digest) ?_
  · exact (lookup_record inj fun h => by cases h.2).trans (unused.steps ctx _ rfl)
  · simp [State.reserving, State.stepped, State.record]
  rintro ⟨result, storage⟩ s₅ ⟨he, holds₅, turned'⟩
  dsimp only at he holds₅ turned' ⊢
  have hs₅ := hs₄.turned turned' rfl
  obtain rfl := turned'.handle
  refine ⟨layout, he, rfl, hs₅, ?_, holds₅, fun op hne hu => ?_⟩
  · refine rest.turn rfl rfl rfl rfl (fun _ _ ho => ho) fun l o ho => ?_
    simp only [State.publishing, State.reserving, State.stepped, State.record, Table.lookup_erase,
      Table.lookup_insert] at ho
    split at ho
    · cases ho
    · exact ho
  · refine (hu.record inj hne rfl rfl).record inj hne ?_ rfl
    simp only [State.record, Table.lookup_insert]
    exact if_neg (Ne.symm hne)

end

end HsmRs
