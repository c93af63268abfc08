import HsmRs.System.Serving

/-! # A workflow that is started again

A process opens both stores and runs one workflow of the engine. It can be killed
anywhere, and the next process does the same again. What such a workflow has to show is
that its stages last: each cut of a run at a stage leaves the disk at a stage.
-/

namespace HsmRs

variable {κ α : Type} [DecidableEq κ] [KeyHash κ] [Crates]

def HsmEngine.openStores (roots : Roots) (id : String) : Io κ (Stores κ) := do
  let storage ← LocalStorage.open roots.storage
  let backend ← LocalArchive.open roots.archive id
  return ⟨storage, backend⟩

/-- One process: it opens both stores and runs one workflow. -/
def HsmEngine.process (roots : Roots) (id : String) (w : Workflow α) : Io κ α := do
  let stores ← openStores roots id
  let (a, _) ← tried (w.locally stores)
  return a

/-- A workflow's stages: what the metadata say, and what else the disk shows. They do not depend on
the files that opening the stores writes. -/
structure Errand (κ : Type) where
  roots : Roots
  backend : String
  named : backend ≠ ""
  stage : State κ → Disk (FileName κ) (Content κ) → Prop
  steady : ∀ {st s s'}, stage st s →
    Frame (fun _ n => ¬ n.IsTemp ∧ n ≠ .state ∧ n ≠ .backendId) s s' → stage st s'

namespace Errand

variable {t : Errand κ} {s s' : Disk (FileName κ) (Content κ)} {stores : Stores κ} {next : State κ}
  {π : Policy (FileName κ) (Content κ)}

/-- Whichever version of the metadata is left, it is at a stage of the errand. -/
structure Paused (t : Errand κ) (s : Disk (FileName κ) (Content κ)) : Prop where
  top : s.dir [] = true
  identifies : LocalArchive.Identifies t.roots.archive t.backend s
  born : Born t.roots.storage s
  cells : Cells t.roots.storage (fun st => st.schema = 1 ∧ t.stage st s) s

/-- A process has the stores open, at a stage of the errand. -/
structure Running (t : Errand κ) (stores : Stores κ) (s : Disk (FileName κ) (Content κ)) : Prop
    extends stores.Serving t.roots s where
  backend : stores.archive.id = t.backend
  stage : t.stage stores.storage.state s

namespace Paused

omit [DecidableEq κ] [KeyHash κ] [Crates] in
theorem frame (h : t.Paused s) (hf : Frame Named s s') : t.Paused s' where
  top := hf.dir _ .data id h.top
  identifies := h.identifies.frame hf id
  born := h.born.frame hf id
  cells := (h.cells.frame hf id).mono fun _ hp =>
    ⟨hp.1, t.steady hp.2 (hf.mono fun _ _ hk => hk.1)⟩

omit [DecidableEq κ] [KeyHash κ] [Crates] in
theorem placed (h : t.Paused s) (hp : Placed t.roots.storage .state (.state next) s s')
    (schema : next.schema = 1) (hn : t.stage next s) : t.Paused s' := by
  have steady : ∀ {st}, t.stage st s → t.stage st s' := fun hs =>
    t.steady hs (hp.others.mono fun _ _ hk => ⟨hk.1, fun he => hk.2.1 he.2⟩)
  have before : Keeping t.roots.storage (fun st => st.schema = 1 ∧ t.stage st s') s s :=
    ⟨h.cells.mono fun _ hp => ⟨hp.1, steady hp.2⟩, fun hb => hb⟩
  have keeping := before.placed hp ⟨schema, steady hn⟩
  exact ⟨hp.others.dir _ .data ⟨id, by simp⟩ h.top, h.identifies.frame hp.others ⟨id, by simp⟩,
    keeping.2 h.born, keeping.1⟩

end Paused

omit [DecidableEq κ] [KeyHash κ] [Crates] in
theorem Running.paused (h : t.Running stores s) : t.Paused s where
  top := h.top
  identifies := h.root' ▸ .of_content t.named (h.backend ▸ h.identity)
  born := h.root ▸ .of_safe h.storage.safe
  cells := h.root ▸ .of_safe h.storage.safe ⟨h.schema, h.stage⟩

omit [DecidableEq κ] [KeyHash κ] [Crates] in
theorem Running.left {K : Dir → FileName κ → Prop} (h : t.Running stores s) (hf : Frame K s s')
    (state : ∀ d, K d .state) (identity : ∀ d, K d .backendId)
    (stage : t.stage stores.storage.state s') : t.Paused s' where
  top := hf.dir _ _ (identity _) h.top
  identifies := h.paused.identifies.frame hf (identity _)
  born := h.paused.born.frame hf (state _)
  cells := (h.root ▸ Cells.of_safe h.storage.safe ⟨h.schema, stage⟩ :
    Cells t.roots.storage (fun st => st.schema = 1 ∧ t.stage st s') s).frame hf (state _)

omit [DecidableEq κ] [KeyHash κ] [Crates] in
theorem Running.frame {K : Dir → FileName κ → Prop} (h : t.Running stores s) (hf : Frame K s s')
    (state : ∀ d, K d .state) (identity : ∀ d, K d .backendId) (hk : s'.locked = s.locked)
    (stage : t.stage stores.storage.state s') : t.Running stores s' :=
  ⟨h.toServing.frame hf state identity hk, h.backend, stage⟩

omit [DecidableEq κ] [KeyHash κ] [Crates] in
theorem Running.quiet (h : t.Running stores s) (hf : Frame Named s s') :
    t.Paused s' ∧ (s'.locked = s.locked → t.Running stores s') := by
  have stage := t.steady h.stage (hf.mono fun _ _ hk => hk.1)
  exact ⟨h.left hf (fun _ => id) (fun _ => id) stage,
    fun hk => h.frame hf (fun _ => id) (fun _ => id) hk stage⟩

omit [DecidableEq κ] [KeyHash κ] [Crates] in
theorem Running.turned {storage : LocalStorage κ} (h : t.Running stores s)
    (ht : stores.storage.Turned next s s' storage)
    (schema : next.schema = stores.storage.state.schema)
    (stage : t.stage next s') : t.Running { stores with storage } s' :=
  ⟨h.toServing.turned ht schema, h.backend, by rw [ht.handle]; exact stage⟩

omit [KeyHash κ] [Crates] in
theorem opens (smooth : π.Smooth) (h : t.Paused s) (tree : s.Tree)
    (unlocked : ∀ d n, s.locked d n = false) :
    Endures (fsMachine π) t.Paused (HsmEngine.openStores t.roots t.backend : Io κ _) s
      fun stores s' =>
      t.Running stores s' ∧
        s.lookup t.roots.storage .state = some ⟨.state stores.storage.state, true⟩ ∧
        Frame (fun _ n => ¬ n.IsTemp ∧ n ≠ .state ∧ n ≠ .backendId) s s' := by
  have spares : (LocalStorage.open t.roots.storage : Io κ _).run.Within
      (FsOp.Spares (NamedBut t.roots.storage .state)) :=
    LocalStorage.spares_open (fun _ _ h => h.1) fun h => h.2 ⟨rfl, rfl⟩
  -- storage is opened with the metadata that are there
  obtain ⟨st, hl, schema, stage⟩ : ∃ st, s.lookup t.roots.storage .state = some ⟨.state st, true⟩ ∧
      st.schema = 1 ∧ t.stage st s := by
    obtain ⟨f, hf⟩ := Option.ne_none_iff_exists'.mp h.born.1
    obtain ⟨st, rfl, hp⟩ := h.cells.1 f hf
    exact ⟨st, hf, hp⟩
  have held : Held (· = st) (s.lookup t.roots.storage .state) := fun f hf => by
    rw [hl] at hf
    cases hf
    exact ⟨st, rfl, rfl⟩
  have old : s.lookup t.roots.storage .state = none → ∀ a b, State.new a b = st := fun hn => by
    rw [hl] at hn
    cases hn
  have current : ∀ st', st' = st → st'.schema = 1 := fun _ hp => hp ▸ schema
  have goes := ((LocalStorage.open_succeeds smooth current held old tree h.top
    (unlocked _ _) fun d => unlocked d _).framed spares).tree tree
  unfold HsmEngine.openStores
  refine .bind ((Endures.of_succeeds goes ?_).mono (fun _ h => h) ?_)
  · refine Prog.wp_mono (Prog.wp_and (wp_open h.cells fun hn => ?_)
      (Prog.wp_frame spares (Q := fun _ _ => True) (fun _ hf => hf) fun _ _ _ _ => trivial)) ?_
      fun _ _ _ _ => trivial
    · have hn := hn.resolve_left nofun
      rw [hl] at hn
      cases hn
    · rintro s' ⟨⟨cells, born⟩, hf⟩
      exact ⟨hf.dir _ .data ⟨id, by simp⟩ h.top, h.identifies.frame hf ⟨id, by simp⟩,
        born h.born, cells.mono fun _ hp => ⟨hp.1, t.steady hp.2 (hf.mono fun _ _ hk =>
          ⟨hk.1, fun he => hk.2.1 he.2⟩)⟩⟩
  rintro storage s₁ ⟨⟨⟨hr, rfl, serving, locked⟩, f₁⟩, tree₁⟩
  have f₁' : Frame (fun _ n => ¬ n.IsTemp ∧ n ≠ .state ∧ n ≠ .backendId) s s₁ :=
    f₁.mono fun _ _ hk => ⟨hk.1, fun he => hk.2.1 he.2⟩
  have top₁ : s₁.dir [] = true := f₁.dir _ .data ⟨id, by simp⟩ h.top
  have identifies₁ := h.identifies.frame f₁ ⟨id, by simp⟩
  have free₁ : s₁.locked t.roots.archive .ownerLock = false := by
    rw [locked]
    have apart : t.roots.archive ≠ t.roots.storage :=
      fun he => t.roots.apart (he ▸ List.suffix_refl _)
    simp [Disk.setLock, unlocked, apart]
  have paused : ∀ {s'}, Frame (NamedBut t.roots.archive .backendId) s₁ s' →
      LocalArchive.Identifies t.roots.archive t.backend s' → t.Paused s' := fun {s'} hf hi =>
    { top := hf.dir _ .data ⟨id, by simp⟩ top₁
      identifies := hi
      born := (hr ▸ Born.of_safe serving.safe : Born t.roots.storage s₁).frame hf ⟨id, by simp⟩
      cells := (hr ▸ Cells.of_safe serving.safe ⟨schema, t.steady (t.steady stage f₁')
        (hf.mono fun _ _ hk => ⟨hk.1, fun he => hk.2.2 he.2⟩)⟩ :
          Cells t.roots.storage (fun st => st.schema = 1 ∧ t.stage st s') s₁).frame hf
            ⟨id, by simp⟩ }
  refine .bind ((Endures.of_succeeds (LocalArchive.open_succeeds smooth tree₁ top₁ free₁ identifies₁
    serving.idle) (LocalArchive.wp_open tree₁ ?_ ?_ (fun _ _ _ _ _ => trivial)
      fun _ _ _ _ => trivial)).mono (fun _ h => h) ?_)
  · exact fun s' hp => hp.frame frame_lock
  · rintro s' (hf | ⟨ha, hp⟩)
    · exact paused (hf.mono fun _ _ => NamedBut.named) (identifies₁.frame hf id)
    · exact paused hp.others (.of_content t.named ⟨true, hp.now⟩)
  rintro backend s₂ ⟨rfl, archive, identity, f₂, -⟩
  have f₂' : Frame (fun _ n => ¬ n.IsTemp ∧ n ≠ .state ∧ n ≠ .backendId) s₁ s₂ :=
    f₂.mono fun _ _ hk => ⟨hk.1, fun he => hk.2.2 he.2⟩
  have running : t.Running ⟨storage, ⟨t.roots.archive, t.backend⟩⟩ s₂ :=
    { storage := ⟨serving.healthy, serving.safe.frame f₂ ⟨id, by simp⟩,
        f₂.dir _ .data ⟨id, by simp⟩ serving.layouts, archive.idle⟩
      archive := archive
      root := hr
      root' := rfl
      schema := schema
      top := f₂.dir _ .data ⟨id, by simp⟩ top₁
      identity := identity
      backend := rfl
      stage := t.steady (t.steady stage f₁') f₂' }
  exact .pure running.paused ⟨running, hl, f₁'.trans f₂'⟩

variable {w : Workflow α}

/-- A process whose workflow lasts leaves a stage wherever it is killed. -/
theorem process_cuts (smooth : π.Smooth)
    (lasts : ∀ stores s, t.Running stores s →
      (w.locally stores).wp (fsMachine π) t.Paused (fun _ _ => True) s)
    (h : t.Paused s) (tree : s.Tree) (unlocked : ∀ d n, s.locked d n = false)
    (hc : Cuts (fsMachine π) (HsmEngine.process t.roots t.backend w : Io κ α).run s s') :
    t.Paused s' := by
  refine Prog.wp_sound_cuts (Q := fun _ _ => True) ?_ hc
  unfold HsmEngine.process
  apply Prog.wp_run_bind_of
  refine Prog.wp_mono (opens smooth h tree unlocked) (fun _ h => h) ?_
  rintro r s₁ - ⟨stores, rfl, running, -⟩
  apply Prog.wp_run_bind_of
  refine Prog.wp_bind.mpr (Prog.wp_mono (lasts stores s₁ running) (fun _ h => h) ?_)
  rintro ⟨r, stores'⟩ s₂ now -
  cases r <;> exact ⟨now, by trivial⟩

/-- A process that is not killed runs the workflow at the stage that its disk shows. -/
theorem process_runs (smooth : π.Smooth) (h : t.Paused s) (tree : s.Tree)
    (unlocked : ∀ d n, s.locked d n = false) {r : HsmResult α}
    (hr : Runs (fsMachine π) (HsmEngine.process t.roots t.backend w : Io κ α).run s r s') :
    ∃ stores s₁ stores', t.Running stores s₁ ∧
      s.lookup t.roots.storage .state = some ⟨.state stores.storage.state, true⟩ ∧
      Frame (fun _ n => ¬ n.IsTemp ∧ n ≠ .state ∧ n ≠ .backendId) s s₁ ∧
      Runs (fsMachine π) (w.locally stores) s₁ (r, stores') s' := by
  unfold HsmEngine.process at hr
  rw [Prog.run_bind, Runs.bind_iff] at hr
  obtain ⟨x, s₁, ho, hr⟩ := hr
  obtain ⟨stores, rfl, running, hl, hf⟩ := (opens smooth h tree unlocked).runs ho
  dsimp only at hr
  rw [Prog.run_bind, Runs.bind_iff] at hr
  obtain ⟨y, s₂, hw, hr⟩ := hr
  rw [tried, Prog.run_mk, Runs.bind_iff] at hw
  obtain ⟨⟨r', stores'⟩, s₃, hw, hy⟩ := hw
  rw [Runs.ret_iff] at hy
  obtain ⟨rfl, rfl⟩ := hy
  refine ⟨stores, s₁, stores', running, hl, hf, ?_⟩
  cases r' with
  | error e =>
    obtain ⟨rfl, rfl⟩ := Runs.ret_iff.mp hr
    exact hw
  | ok a =>
    obtain ⟨rfl, rfl⟩ := Runs.ret_iff.mp hr
    exact hw

/-- Each process starts at a stage, however many have been killed before. -/
theorem restarted (smooth : π.Smooth)
    (lasts : ∀ stores s, t.Running stores s →
      (w.locally stores).wp (fsMachine π) t.Paused (fun _ _ => True) s)
    (h : t.Paused s) (tree : s.Tree) (unlocked : ∀ d n, s.locked d n = false)
    (hr : Restarted (fsMachine π) Disk.reboot (HsmEngine.process t.roots t.backend w : Io κ α).run
      s s') : t.Paused s' ∧ s'.Tree ∧ ∀ d n, s'.locked d n = false := by
  refine hr.keeps (I := fun s => t.Paused s ∧ s.Tree ∧ ∀ d n, s.locked d n = false) ?_
    ⟨h, tree, unlocked⟩
  rintro s₁ s₂ ⟨h₁, tree₁, unlocked₁⟩ hc
  refine ⟨?_, hc.tree tree₁, fun _ _ => rfl⟩
  exact (process_cuts smooth lasts h₁ tree₁ unlocked₁ hc).frame (Disk.frame_reboot _)

end Errand

end HsmRs
