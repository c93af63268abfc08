import HsmRs.System.Lifecycle

/-! # The local exercise

`main` of `hsm-local`: it opens both stores below a working directory, imports a file,
archives and releases it, collects the garbage, recalls it and reads it back. Whatever
earlier runs and their crashes have left there, it goes through when no operation fails.
-/

namespace HsmRs

section

variable {κ : Type} [DecidableEq κ] [KeyHash κ] [Crates]

namespace HsmLocal

structure Report where
  entity : EntityKey
  archive : Residency
  release : Residency
  «recall» : Residency
  content : Bytes
  deriving DecidableEq

def content : Bytes := "portable HSM: archive, release, recall\n".toUTF8.data.toList

def context (id step : String) : OperationContext := ⟨id ++ "-" ++ step, 1, 1⟩

def cycle (id : String) (initial : EntityState) (engine : Stores κ) : Io κ Report := do
  let entity := initial.data.entity
  let archiveKey : ArchiveKey := ⟨"local-demo", id⟩
  let (dual, engine) ← tried
    ((HsmEngine.archive (context id "archive") initial.data archiveKey).locally engine)
  let (offline, engine) ← tried
    ((HsmEngine.release (context id "release") dual).locally engine)
  let (_, storage) ← tried engine.storage.collectGarbage
  let (restored, engine) ← tried
    ((HsmEngine.recall (context id "recall") offline archiveKey).locally { engine with storage })
  let content ← engine.storage.read entity
  return ⟨entity, dual.residency, offline.residency, restored.residency, content⟩

def exercise (id : String) (bytes : Bytes) (storage : LocalStorage κ) (backend : LocalArchive) :
    Io κ Report := do
  let (initial, storage) ← tried (storage.import ("demo-" ++ id) bytes)
  cycle id initial ⟨storage, backend⟩

def main (workdir : Option Dir) : Io κ Report := do
  let root ← okOr workdir (.invalid "usage: hsm-local <dedicated-workdir>")
  let storage ← LocalStorage.open ("source" :: root)
  let backend ← LocalArchive.open ("archive" :: root) "local-demo"
  let id ← uuid
  exercise id content storage backend

end HsmLocal

open HsmLocal

variable {π : Policy (FileName κ) (Content κ)} {s s' : Disk (FileName κ) (Content κ)} {id : String}
  {bytes : Bytes} {roots : Roots}

/-- The names that the exercise derives from its ID are not in the metadata. -/
structure State.Unheard (st : State κ) (id : String) : Prop where
  entity : "demo-" ++ id ∉ st.entities
  operation : ∀ step ∈ ["archive", "release", "recall"], st.Unused (context id step).operationId

structure LocalArchive.Unheard (backend : LocalArchive) (s : Disk (FileName κ) (Content κ))
    (id : String) : Prop where
  object : s.lookup (objectsDir backend.root) (LocalArchive.receiptName ⟨"local-demo", id⟩) = none
  attempt : s.lookup (attemptsDir backend.root)
    (LocalArchive.preparedPath (context id "archive") ⟨"local-demo", id⟩) = none

omit [DecidableEq κ] [Crates] in
theorem LocalArchive.Unheard.frame {backend : LocalArchive} (h : backend.Unheard s id)
    (hf : Frame (fun _ n => ¬ n.IsTemp ∧ n ≠ .state ∧ n ≠ .backendId) s s') :
    backend.Unheard s' id where
  object := hf.absent
    ⟨fun h => h, by simp [LocalArchive.receiptName], by simp [LocalArchive.receiptName]⟩ h.object
  attempt := hf.absent
    ⟨fun h => h, by simp [LocalArchive.preparedPath], by simp [LocalArchive.preparedPath]⟩ h.attempt

omit [DecidableEq κ] [KeyHash κ] [Crates] in
theorem HsmLocal.context_ne {step step' : String} (h : step ≠ step') :
    (context id step).operationId ≠ (context id step').operationId := by
  simpa [context, String.append_assoc] using h

omit [DecidableEq κ] [KeyHash κ] [Crates] in
theorem HsmLocal.qualify_context {step : String} :
    LocalStorage.qualify (context id step) = .ok () := by
  have valid : (context id step).validate = .ok () :=
    OperationContext.validate_eq_ok.mpr ⟨by simp [context], by simp [context], by simp [context]⟩
  unfold LocalStorage.qualify
  rw [valid]
  rfl

omit [DecidableEq κ] [KeyHash κ] in
theorem State.Coherent.imported {root : Dir} {st : State κ} (h : st.Coherent root)
    (new : id ∉ st.entities) (named : id ≠ "") {layout : String} {length : Nat}
    {digest : ContentDigest} :
    State.Resting
      { st with
        entities := st.entities.insert id (LocalStorage.imported st id layout length digest) }
      ⟨⟨st.storageId, st.namespace, id⟩, 1⟩ (LocalStorage.imported st id layout length digest) where
  current := State.entity_eq_ok.mpr ⟨⟨rfl, rfl, named⟩, by simp, rfl⟩
  unviewed := by
    rw [Table.not_any_iff]
    intro v o ho hd
    obtain ⟨-, e, layout, he, -⟩ := h.view v o ho
    rw [hd] at he
    exact new (Finmap.mem_of_lookup_eq_some he)
  unrecalled := by
    rw [Table.not_any_iff]
    intro l o ho hd
    obtain ⟨-, e, he, -⟩ := h.recall l o ho
    rw [hd] at he
    exact new (Finmap.mem_of_lookup_eq_some he)

omit [DecidableEq κ] [KeyHash κ] [Crates] in
theorem EntityState.attached_anchors {e : EntityState} {receipt : ArchiveReceipt}
    (h : e.anchors = []) : (e.attached receipt).anchors = [receipt] := by
  simp [attached, h]

/-- An entity that is only online goes through a whole cycle, and its bytes come back. -/
theorem HsmLocal.cycle_succeeds (inj : Function.Injective (key : Keyed → κ)) (kind : π.Kind)
    {engine : Stores κ} {data : DataKey} {e : Entity} {layout : String}
    (h : engine.Serving roots s)
    (vacant : engine.archive.Vacant (context id "archive") ⟨"local-demo", id⟩ s)
    (unused : ∀ step ∈ ["archive", "release", "recall"],
      engine.storage.state.Unused (context id step).operationId)
    (rest : engine.storage.state.Resting data e) (published : e.published = some layout)
    (unanchored : e.public.anchors = [])
    (holds : s.Holds (layoutDir engine.storage.root layout) bytes)
    (length : e.public.length = bytes.length) (digest : e.public.digest = digestOf bytes) :
    Succeeds (fsMachine π) (cycle id e.public engine) s fun report _ =>
      report = ⟨data.entity, .dual, .offline, .dual, bytes⟩ := by
  have smooth := kind.toSmooth
  obtain ⟨-, -, hd⟩ := State.entity_eq_ok.mp rest.current
  subst hd
  have demo : engine.archive.id ≠ "" := vacant.accepts.1 ▸ by simp
  unfold cycle
  refine .bind
    ((HsmEngine.archive_succeeds inj kind h demo qualify_context (unused _ (by simp)) rest
    published holds length digest vacant (by simp [unanchored])).mono ?_)
  rintro ⟨dual, engine₂⟩ s₂ ⟨receipt, payload, hd, attests, archived, ha, hs₂,
    rest₂, unused₂, there⟩
  dsimp only at hd archived ha hs₂ rest₂ unused₂ there ⊢
  subst hd
  have anchors : (e.public.attached receipt).anchors = [receipt] :=
    EntityState.attached_anchors unanchored
  have intact : engine₂.archive.Intact receipt s₂ := by
    obtain ⟨x, hx⟩ := archived.object
    rw [ha]
    exact ⟨archived.readable, _, Disk.reads_of hx, rfl⟩
  have release₂ : engine₂.storage.state.Unused (context id "release").operationId :=
    unused₂ _ (context_ne (by simp)) (unused _ (by simp))
  have recall₂ : engine₂.storage.state.Unused (context id "recall").operationId :=
    unused₂ _ (context_ne (by simp)) (unused _ (by simp))
  refine .bind ((HsmEngine.release_succeeds (e := ⟨e.public.attached receipt, e.published⟩) inj kind
    hs₂ qualify_context release₂ rest₂ published there ?_ ?_).mono ?_)
  · intro a hm
    rw [anchors, List.mem_singleton] at hm
    subst hm
    exact ⟨rfl, attests.data_eq, attests.length_eq.trans length.symm,
      attests.digest_eq.trans digest.symm, attests.receiptId, attests.durabilityProfile⟩
  · rw [anchors]
    exact LocalArchive.verifies_cons.mpr (.inl intact)
  rintro ⟨offline, engine₃⟩ s₃ ⟨ho, ha₃, hs₃, rest₃, unused₃, kept⟩
  dsimp only at ho ha₃ hs₃ rest₃ unused₃ kept ⊢
  subst ho
  have recall₃ := unused₃ _ (context_ne (by simp)) recall₂
  have archived₃ : engine₃.archive.Archived receipt bytes payload s₃ :=
    ha₃ ▸ kept receipt bytes payload (ha ▸ archived)
  have spares : (tried engine₃.storage.collectGarbage).run.Within
      (FsOp.Spares (Off engine₃.storage.root)) :=
    Prog.Within.bind (LocalStorage.spares_collectGarbage LocalStorage.distant_off)
      fun _ => trivial
  have off : ∀ {d : Dir} {n : FileName κ}, ¬ n.IsTemp → engine₃.archive.root <:+ d →
      Off engine₃.storage.root d n := fun hn below =>
    ⟨hn, hs₃.root ▸ Roots.off (hs₃.root' ▸ below)⟩
  refine .bind (((LocalStorage.collectGarbage_succeeds smooth hs₃.storage).framed spares).mono ?_)
  rintro ⟨n, storage₄⟩ s₄ ⟨⟨he, serving₄⟩, f₄⟩
  dsimp only at he serving₄ ⊢
  have hs₄ : Stores.Serving roots { engine₃ with storage := storage₄ } s₄ :=
    { storage := serving₄
      archive := hs₃.archive.frame f₄ (fun _ _ below => off (fun h => h) below) serving₄.idle
      root := he ▸ hs₃.root
      root' := hs₃.root'
      schema := by rw [he]; exact hs₃.schema
      top := f₄.dir _ .data ⟨fun h => h, hs₃.root ▸ Roots.off_top⟩ hs₃.top
      identity := f₄.still (off (fun h => h) (List.suffix_refl _)) hs₃.identity }
  have archived₄ := archived₃.frame f₄ (off (fun h => h) (List.suffix_cons _ _))
    (off (fun h => h) archived₃.below)
  subst he
  refine .bind
    ((HsmEngine.recall_succeeds (e := ⟨(e.public.attached receipt).released, none⟩) inj kind
    hs₄ qualify_context ⟨recall₃.completed, recall₃.steps⟩
    ⟨rest₃.current, rest₃.unviewed, rest₃.unrecalled⟩ rfl rfl ?_ ?_ archived₄).mono ?_)
  · rw [show (e.public.attached receipt).released.anchors = [receipt] from anchors]
    simp [attests.key_eq]
  · exact ⟨attests.key_eq, attests.data_eq, attests.length_eq.trans length.symm,
      attests.digest_eq.trans digest.symm, attests.receiptId, attests.durabilityProfile⟩
  rintro ⟨restored, engine₅⟩ s₅ ⟨layout', hr, -, hs₅, rest₅, holds₅, -⟩
  dsimp only at hr hs₅ rest₅ holds₅ ⊢
  subst hr
  refine .bind ((LocalStorage.read_succeeds smooth hs₅.storage rest₅.current rfl holds₅).mono ?_)
  rintro _ _ ⟨rfl, rfl⟩
  exact .pure rfl

theorem HsmLocal.exercise_succeeds (inj : Function.Injective (key : Keyed → κ)) (kind : π.Kind)
    {storage : LocalStorage κ} {backend : LocalArchive}
    (h : Stores.Serving roots ⟨storage, backend⟩ s) (coherent : storage.state.Coherent storage.root)
    (demo : backend.id = "local-demo") (named : id ≠ "") (unheard : storage.state.Unheard id)
    (vacant : backend.Unheard s id) :
    Succeeds (fsMachine π) (exercise id bytes storage backend) s fun report _ =>
      report = ⟨⟨storage.state.storageId, storage.state.namespace, "demo-" ++ id⟩, .dual, .offline,
        .dual, bytes⟩ := by
  have smooth := kind.toSmooth
  unfold exercise
  refine .bind ((LocalStorage.import_succeeds smooth h.storage (by simp) unheard.entity).mono ?_)
  rintro ⟨initial, storage₁⟩ s₁ ⟨layout, hi, holds₁, turned₁⟩
  dsimp only at hi turned₁ ⊢
  subst hi
  have hs₁ := h.turned turned₁ rfl
  obtain rfl := turned₁.handle
  refine Succeeds.mono (HsmLocal.cycle_succeeds inj kind hs₁ ?_ (fun step hm => ?_)
    (coherent.imported unheard.entity (by simp)) rfl rfl holds₁ rfl rfl) ?_
  · exact LocalArchive.Vacant.frame ⟨⟨demo.symm, named⟩, vacant.object, vacant.attempt⟩
      turned₁.spares (h.spared (fun h => h) h.archive.objects (List.suffix_cons _ _))
      (h.spared (fun h => h) h.archive.attempts (List.suffix_cons _ _))
  · exact ⟨(unheard.operation step hm).completed, (unheard.operation step hm).steps⟩
  · rintro report s₂ rfl
    rfl

/-- What is asked of the disk on which the exercise starts: it is a tree, nobody holds a lock, and
the archive below the working directory, if there is one, is that of the exercise. -/
structure HsmLocal.Startable (root : Dir) (s : Disk (FileName κ) (Content κ)) : Prop where
  tree : s.Tree
  top : s.dir [] = true
  unlocked : ∀ d n, s.locked d n = false
  identifies : LocalArchive.Identifies ("archive" :: root) "local-demo" s

/-- The names that are handed out are not known to the stores below the working directory. -/
structure HsmLocal.Unknown (π : Policy (FileName κ) (Content κ)) (root : Dir) (w : World κ) :
    Prop where
  state : ∀ st, w.Version ("source" :: root) st → ∀ t id, π.uuid t id → st.Unheard id
  archive : ∀ t id, π.uuid t id → LocalArchive.Unheard ⟨"archive" :: root, "local-demo"⟩ w.disk id

def Roots.ofWorkdir (root : Dir) : Roots where
  storage := "source" :: root
  archive := "archive" :: root
  apart h := by simpa using h.eq_of_length rfl
  apart' h := by simpa using h.eq_of_length rfl

omit [KeyHash κ] [Crates] in
theorem HsmLocal.stores_succeed (smooth : π.Smooth) {root : Dir} {P : State κ → Prop}
    (schema : ∀ st, P st → st.schema = 1) (new : ∀ a b, P (State.new a b))
    (cells : Cells ("source" :: root) P s) (start : Startable root s) :
    Succeeds (fsMachine π) (LocalStorage.open ("source" :: root) : Io κ _) s fun storage s' =>
      P storage.state ∧ Succeeds (fsMachine π) (LocalArchive.open ("archive" :: root) "local-demo")
        s' fun backend s'' => backend = ⟨"archive" :: root, "local-demo"⟩ ∧
          Stores.Serving (.ofWorkdir root) ⟨storage, backend⟩ s'' ∧
          Frame (fun _ n => ¬ n.IsTemp ∧ n ≠ .state ∧ n ≠ .backendId) s s'' := by
  have apart : "archive" :: root ≠ "source" :: root := by simp
  have spares : (LocalStorage.open ("source" :: root) : Io κ _).run.Within
      (FsOp.Spares (NamedBut ("source" :: root) .state)) :=
    LocalStorage.spares_open (fun _ _ h => h.1) fun h => h.2 ⟨rfl, rfl⟩
  refine Succeeds.mono
    (((LocalStorage.open_succeeds smooth schema cells.1 (fun _ => new) start.tree start.top
    (start.unlocked _ _) fun d => start.unlocked d _).framed spares).tree start.tree) ?_
  rintro storage s₁ ⟨⟨⟨root_eq, hp, serving, locked⟩, f₁⟩, tree₁⟩
  refine ⟨hp, ?_⟩
  have identifies₁ : LocalArchive.Identifies ("archive" :: root) "local-demo" s₁ :=
    start.identifies.frame f₁ ⟨fun h => h, fun h => apart h.1⟩
  have free : s₁.locked ("archive" :: root) .ownerLock = false := by
    rw [locked]
    simp [Disk.setLock, start.unlocked]
  have top₁ := f₁.dir [] .data ⟨fun h => h, by simp⟩ start.top
  refine Succeeds.mono
    (LocalArchive.open_succeeds smooth tree₁ top₁ free identifies₁ serving.idle) ?_
  rintro backend s₂ ⟨rfl, archive, identity, f₂, locked₂⟩
  refine ⟨rfl, ⟨⟨serving.healthy, ?_, ?_, archive.idle⟩, archive, root_eq, rfl, schema _ hp,
    f₂.dir [] .data ⟨fun h => h, by simp⟩ top₁, identity⟩, ?_⟩
  · exact serving.safe.frame f₂ ⟨fun h => h, by simp⟩
  · exact f₂.dir _ .data ⟨fun h => h, by simp⟩ serving.layouts
  · exact (f₁.mono fun _ _ h => ⟨h.1, fun he => h.2.1 he.2⟩).trans
      (f₂.mono fun _ _ h => ⟨h.1, fun he => h.2.2 he.2⟩)

/-- Whatever calls and crashes have left in the store of the working directory, every run of `main`
in which no operation fails imports an entity under a new name, archives, releases and recalls it,
and reads back the content that was imported. -/
theorem HsmLocal.main_succeeds {π₀ : Policy (FileName κ) (Content κ)} {root : Dir} {w : World κ}
    (inj : Function.Injective (key : Keyed → κ)) (kind : π.Kind) (unknown : Unknown π root w)
    (h : w.Reachable π₀ ("source" :: root)) (start : Startable root w.disk)
    {r : HsmResult Report} (hr : Runs (fsMachine π) (main (some root)).run w.disk r s') :
    ∃ t id storageId ns, π.uuid t id ∧
      r = .ok ⟨⟨storageId, ns, "demo-" ++ id⟩, .dual, .offline, .dual, content⟩ := by
  have smooth := kind.toSmooth
  have keeps := h.keeps (Q := fun _ st => st.Coherent ("source" :: root) ∧ st.schema = 1)
    (Closed.stable fun _ _ _ _ _ hp hs =>
      ⟨State.Coherent.closed _ _ _ _ _ hp.1 hs, State.schema_closed _ _ _ _ _ hp.2 hs⟩)
    fun _ _ _ => ⟨.new, rfl⟩
  have cells : Cells ("source" :: root)
    (fun st => (st.Coherent ("source" :: root) ∧ st.schema = 1) ∧
      ∀ t id, π.uuid t id → st.Unheard id) w.disk := by
    refine ⟨fun f hf => ?_, fun f hf => ?_⟩
    · obtain ⟨st, rfl, hst⟩ := keeps.cells.1 f hf
      exact ⟨st, rfl, hst, unknown.state st (.visible hf)⟩
    · obtain ⟨st, rfl, hst⟩ := keeps.cells.2 f hf
      exact ⟨st, rfl, hst, unknown.state st (.safe hf)⟩
  have new : ∀ a b id, (State.new a b : State κ).Unheard id := fun a b id =>
    ⟨Finmap.notMem_empty, fun _ _ => ⟨rfl, fun _ _ _ => rfl⟩⟩
  have goes : Succeeds (fsMachine π) (main (some root) : Io κ _) w.disk fun report _ =>
      ∃ t id storageId ns, π.uuid t id ∧
        report = ⟨⟨storageId, ns, "demo-" ++ id⟩, .dual, .offline, .dual, content⟩ := by
    unfold main
    refine .check rfl (.bind ((stores_succeed smooth (fun _ h => h.1.2)
      (fun _ _ => ⟨⟨.new, rfl⟩, fun _ _ _ => new _ _ _⟩) cells start).mono ?_))
    rintro storage s₁ ⟨⟨⟨coherent, -⟩, unheard⟩, opens⟩
    refine .bind (opens.mono ?_)
    rintro backend s₂ ⟨rfl, serving, frame⟩
    refine .bind (uuid_succeeds.mono ?_)
    rintro id _ ⟨hid, rfl⟩
    have vacant := (unknown.archive _ _ hid).frame
      (frame.trans ((frame_issue (u := id)).mono fun _ _ h => h.1))
    refine Succeeds.mono (exercise_succeeds inj kind (serving.frame (K := Named) frame_issue
      (fun _ h => h) (fun _ h => h) rfl)
      (serving.root ▸ coherent) rfl (kind.named _ _ hid) (unheard _ _ hid) vacant) ?_
    rintro report _ rfl
    exact ⟨_, _, _, _, hid, rfl⟩
  obtain ⟨report, rfl, h⟩ := goes.runs hr
  obtain ⟨t, id, storageId, ns, hid, rfl⟩ := h
  exact ⟨t, id, storageId, ns, hid, rfl⟩

end

namespace Reference

def drawn : List String :=
  ["n0", "n1", "n2", "n3", "n4", "n5", "n6", "n7", "n8", "n9", "n10", "n11", "n12", "n13", "n14",
    "n15", "n16", "n17", "n18", "n19", "n20", "n21"]

/-- The exercise in an empty working directory. -/
theorem main_succeeds_blank : ∃ r s',
    Runs (fsMachine (drawing drawn)) (HsmLocal.main (some ["s"]) : Io Keyed _).run blank r s' ∧
    ∃ t id storageId ns, (drawing drawn : Policy (FileName Keyed) (Content Keyed)).uuid t id ∧
      r = .ok ⟨⟨storageId, ns, "demo-" ++ id⟩, .dual, .offline, .dual, HsmLocal.content⟩ := by
  have named : ∀ u ∈ drawn, u ≠ "" ∧ u ≠ "s" ∧ u ≠ "a" := by decide
  have unused : ∀ u ∈ drawn ++ [], blank.Unused u := by
    intro u hu
    obtain ⟨-, hs, ha⟩ := named u (by simpa using hu)
    exact blank_unused hs ha
  have kind : (drawing drawn : Policy (FileName Keyed) (Content Keyed)).Kind :=
    drawing_kind fun u hu => (named u hu).1
  have started : World.Reachable anything ["source", "s"] ⟨blank, none⟩ := ⟨blank, rfl, rfl, .refl⟩
  have unknown : HsmLocal.Unknown (drawing drawn) ["s"] ⟨blank, none⟩ := by
    refine ⟨fun st hv => ?_, fun _ _ _ => ⟨rfl, rfl⟩⟩
    cases hv with
    | cached h => cases h
    | visible h => simp [Disk.lookup, blank] at h
    | safe h => cases h
  have startable : HsmLocal.Startable ["s"] blank :=
    ⟨(blank_bare []).tree, rfl, fun _ _ => rfl, by decide, fun f hf => by
      simp [Disk.lookup, blank] at hf⟩
  have goes : ((HsmLocal.main (some ["s"]) : Io Keyed _).run.trial [] drawn blank).isSome := by
    decide +kernel
  obtain ⟨⟨r, s'⟩, hr⟩ := Option.isSome_iff_exists.mp goes
  obtain ⟨runs, -⟩ := Prog.trial_runs (by decide) unused hr
  exact ⟨r, s', runs, HsmLocal.main_succeeds key_injective kind unknown started startable runs⟩

end Reference

end HsmRs
