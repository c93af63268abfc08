import HsmRs.Archive.Calls
import HsmRs.Local.Opening

/-! # Opening the archive

Opening writes the backend ID of a new archive and nothing else by name. Its
directories are safe afterwards, as far as those above the root are.
-/

namespace HsmRs.LocalArchive

variable {κ : Type} {s s' s'' : Disk (FileName κ) (Content κ)} {root : Dir} {id : String}

/-- What opening an archive can do: the named files stay, or a missing backend ID is written. -/
inductive Opening (root : Dir) (id : String) (s s' : Disk (FileName κ) (Content κ)) : Prop where
  | still : Frame Named s s' → Opening root id s s'
  | identified : s.lookup root .backendId = none → Placed root .backendId (.text id) s s' →
      Opening root id s s'

theorem backendId_named : ¬ (FileName.backendId : FileName κ).IsTemp := fun h => h

namespace Opening

theorem others (h : Opening root id s s') : Frame (NamedBut root .backendId) s s' := by
  rcases h with hf | ⟨-, hp⟩
  · exact hf.mono fun _ _ => NamedBut.named
  · exact hp.others

theorem trans (h : Opening root id s s') (hf : Frame Named s' s'') : Opening root id s s'' := by
  rcases h with hf' | ⟨ha, hp⟩
  · exact .still (hf'.trans hf)
  · exact .identified ha (hp.before backendId_named hf)

theorem after (hf : Frame Named s s') (h : Opening root id s' s'') : Opening root id s s'' := by
  rcases h with hf' | ⟨ha, hp⟩
  · exact .still (hf.trans hf')
  · refine .identified ?_ (.after hf backendId_named hp)
    have := hf.now root .backendId backendId_named
    rw [ha] at this
    exact this.none_right

theorem dirs {d : Dir} (h : Opening root id s s') (hd : s.dir d = true) : s'.dir d = true :=
  h.others.dir d .data ⟨fun h => h, by simp⟩ hd

theorem safeDirs {d : Dir} (h : Opening root id s s') (hd : s.dir d = true)
    (hs : s.safeDir d = true) : s'.safeDir d = true :=
  h.others.safeDir d .data ⟨fun h => h, by simp⟩ hd hs

end Opening

structure Opened (root : Dir) (id : String) (s s' : Disk (FileName κ) (Content κ)) : Prop where
  opening : Opening root id s s'
  named : id ≠ ""
  tree : s'.Tree
  objects : s'.dir (objectsDir root) = true ∧ s'.safeDir (objectsDir root) = true
  attempts : s'.dir (attemptsDir root) = true ∧ s'.safeDir (attemptsDir root) = true
  settled : s'.Settled root
  identity : ∃ x, s'.lookup root .backendId = some ⟨.text id, x⟩

def Identifies (root : Dir) (id : String) (s : Disk (FileName κ) (Content κ)) : Prop :=
  id ≠ "" ∧ ∀ f, s.lookup root .backendId = some f → f.content = .text id

theorem spares_open {K : Dir → FileName κ → Prop} (hk : ∀ d n, K d n → Named d n)
    (h : ¬ K root .backendId) : (LocalArchive.open root id : Io κ _).run.Within
    (FsOp.Spares K) := by
  have directories : (do
      createDirAll (objectsDir root)
      createDirAll (attemptsDir root)
      syncDir root
      return ⟨root, id⟩ : Io κ LocalArchive).run.Within (FsOp.Spares K) :=
    Prog.within_bind spares_createDirAll fun _ => Prog.within_bind spares_createDirAll fun _ =>
      Prog.within_bind (within_io.mpr trivial) fun _ => trivial
  have load : (load root id : Io κ _).run.Within (FsOp.Spares K) := by
    refine Prog.within_guard (Prog.within_bind (within_ask.mpr trivial) fun b => ?_)
    cases b with
    | false => exact Prog.within_bind (spares_writeJson hk h) fun _ => directories
    | true =>
      refine Prog.within_bind (within_io.mpr trivial) fun c => Prog.within_bind ?_ fun prior => ?_
      · cases c <;> trivial
      · exact Prog.within_guard directories
  refine Prog.within_bind spares_lockRoot fun _ => load.bind fun r => ?_
  rcases r with e | a
  · exact ⟨trivial, fun _ => trivial⟩
  · trivial

theorem yields_open {A : (o : FsOp (FileName κ) (Content κ)) → o.Ans → Prop} {a : LocalArchive}
    (h : (LocalArchive.open root id : Io κ _).run.Yields A (.ok a)) : a = ⟨root, id⟩ := by
  have directories : ∀ {a : LocalArchive}, (do
      createDirAll (objectsDir root)
      createDirAll (attemptsDir root)
      syncDir root
      return ⟨root, id⟩ : Io κ LocalArchive).run.Yields A (.ok a) → a = ⟨root, id⟩ := by
    intro a h
    simp only [Prog.yields_bind_ok, Prog.yields_pure_ok] at h
    obtain ⟨-, -, -, -, -, -, h⟩ := h
    exact h.symm
  obtain ⟨u, -, h⟩ := Prog.yields_bind_ok.mp h
  rw [Prog.run_mk, Prog.yields_bind] at h
  obtain ⟨e | a', hl, h⟩ := h
  · obtain ⟨x, -, h⟩ := h
    cases h
  cases h
  obtain ⟨b, -, hl⟩ := Prog.yields_bind_ok.mp (Prog.yields_guard_ok.mp hl).2
  cases b with
  | false =>
    obtain ⟨u, -, hl⟩ := Prog.yields_bind_ok.mp hl
    exact directories hl
  | true =>
    obtain ⟨c, -, hl⟩ := Prog.yields_bind_ok.mp hl
    obtain ⟨prior, -, hl⟩ := Prog.yields_bind_ok.mp hl
    exact directories (Prog.yields_guard_ok.mp hl).2

variable [DecidableEq κ] {π : Policy (FileName κ) (Content κ)}
  {C : Disk (FileName κ) (Content κ) → Prop}

/-- The end of `load`: the directories of the archive are made and their entries safe. -/
theorem wp_directories {Q : HsmResult LocalArchive → Disk (FileName κ) (Content κ) → Prop}
    (tree : s.Tree) (cut : ∀ s', Frame Named s s' → C s')
    (ok : ∀ s', Frame Named s s' → s'.Tree →
      (s'.dir (objectsDir root) = true ∧ s'.safeDir (objectsDir root) = true) →
      (s'.dir (attemptsDir root) = true ∧ s'.safeDir (attemptsDir root) = true) →
      s'.Settled root → s'.locked = s.locked → Q (.ok ⟨root, id⟩) s')
    (hr : s.dir root = true)
    (error : ∀ e s', Frame Named s s' → ¬ π.Smooth → Q (.error e) s') :
    (do
      createDirAll (objectsDir root)
      createDirAll (attemptsDir root)
      syncDir root
      return ⟨root, id⟩ : Io κ LocalArchive).run.wp (fsMachine π) C Q s := by
  have top : s.dir [] = true := tree.suffix hr List.nil_suffix
  apply Prog.wp_run_bind_of
  refine wp_createDirAll tree cut (fun s₁ f₁ t₁ ho k₁ => ?_)
    fun e s' _ hf hn => error e s' hf fun h => hn ⟨h, top⟩
  apply Prog.wp_run_bind_of
  refine wp_createDirAll t₁ (fun s' hf => cut s' (f₁.trans hf)) (fun s₂ f₂ t₂ ha k₂ => ?_)
    fun e s' _ hf hn => error e s' (f₁.trans hf) fun h => hn ⟨h, f₁.dirs top⟩
  have f₂' := f₁.trans f₂
  apply Prog.wp_run_bind_of
  refine wp_syncDir (fun s' hf => cut s' (f₂'.trans hf)) (fun _ => ?_) fun e s' _ hf hn => ?_
  · have f₃ : Frame Named s (s₂.flush root) := f₂'.trans (Disk.flushed_flush _ _).frame
    have ho : s₂.dir (objectsDir root) = true := f₂.dirs (ho top)
    have ha : s₂.dir (attemptsDir root) = true := ha (f₁.dirs top)
    refine ⟨cut _ f₃, ok _ f₃ (t₂.of_dir rfl) ⟨ho, ?_⟩ ⟨ha, ?_⟩ (settled_flush _ _) (k₂.trans k₁)⟩
    · simpa [Disk.flush, objectsDir] using ho
    · simpa [Disk.flush, attemptsDir] using ha
  · refine error e s' (f₂'.trans hf) fun h => ?_
    rcases hn with hn | hn
    · exact hn h
    · rw [f₂'.dirs hr] at hn
      cases hn

theorem wp_load {Q : HsmResult LocalArchive → Disk (FileName κ) (Content κ) → Prop}
    (tree : s.Tree) (hr : s.dir root = true) (cut : ∀ s', Opening root id s s' → C s')
    (ok : ∀ s', Opened root id s s' → s'.locked = s.locked → Q (.ok ⟨root, id⟩) s')
    (error : ∀ e s', Opening root id s s' → ¬ (π.Smooth ∧ Identifies root id s) →
      Q (.error e) s') :
    (load root id : Io κ _).run.wp (fsMachine π) C Q s := by
  have still : ∀ s', Frame Named s s' → C s' := fun s' h => cut s' (.still h)
  have now : C s := still s (.refl s)
  have identified : ∀ {s s' : Disk (FileName κ) (Content κ)}, Frame Named s s' →
      (∃ x, s.lookup root .backendId = some ⟨.text id, x⟩) →
      ∃ x, s'.lookup root .backendId = some ⟨.text id, x⟩ := by
    rintro s s' hf ⟨x, hx⟩
    have := hf.now root .backendId backendId_named
    rw [hx] at this
    obtain ⟨⟨c, y⟩, hg, hc, -⟩ := this.some_left
    exact ⟨y, by rw [hg]; simpa using hc⟩
  have fails : ∀ e, ¬ Identifies root id s → Q (.error e) s :=
    fun e hn => error e s (.still (.refl s)) fun h => hn h.2
  refine Prog.wp_guard now (fun hn => fails _ fun h => h.1 hn) fun hid => ?_
  apply Prog.wp_run_bind_of
  refine wp_existsFile now rfl ?_
  cases hl : s.lookup root .backendId with
  | some f =>
    apply Prog.wp_run_bind_of
    refine wp_readFile now (fun f' hf' => ?_) fun e _ hn =>
      error e s (.still (.refl s)) fun h => ?_
    case refine_2 =>
      rcases hn with hn | hn
      · exact hn h.1
      · rw [hl] at hn
        cases hn
    rw [hl] at hf'
    cases hf'
    apply Prog.wp_run_bind_of
    refine wp_decode now (fun prior hp => ?_) fun hn => fails _ fun h => ?_
    case refine_2 =>
      rw [h.2 f hl] at hn
      cases hn
    have hc : f.content = .text prior := by
      cases hf : f.content with
      | text t => simpa [hf] using hp
      | _ => simp [hf] at hp
    refine Prog.wp_guard now (fun hn => fails _ fun h => ?_) fun hn => ?_
    · have := h.2 f hl
      rw [hc] at this
      cases this
      exact hn rfl
    · have hx : ∃ x, s.lookup root .backendId = some ⟨.text id, x⟩ := by
        rw [not_not] at hn
        subst hn
        obtain ⟨c, x⟩ := f
        cases hc
        exact ⟨x, hl⟩
      exact wp_directories tree still
        (fun s' hf ht ho ha hd hk => ok s' ⟨.still hf, hid, ht, ho, ha, hd, identified hf hx⟩ hk) hr
        fun e s' hf hn => error e s' (.still hf) fun h => hn h.1
  | none =>
    have moved : ∀ {s'}, Frame Named s s' ∨ Placed root .backendId (.text id) s s' →
        Opening root id s s' := fun h => h.elim .still (.identified hl)
    apply Prog.wp_run_bind_of
    refine Prog.wp_tree tree (wp_writeJson backendId_named (fun s' h => cut s' (moved h))
      (fun s₁ p₁ _ k₁ t₁ => ?_) fun e s' _ h hn _ => error e s' (moved h) fun h' => ?_)
    · have h₁ : Opening root id s s₁ := .identified hl p₁
      refine wp_directories t₁ (fun s' hf => cut s' (h₁.trans hf))
        (fun s' hf ht ho ha hd hk =>
          ok s' ⟨h₁.trans hf, hid, ht, ho, ha, hd, identified hf ⟨_, p₁.now⟩⟩
          (hk.trans k₁)) (h₁.dirs hr) fun e s' hf hn => error e s' (h₁.trans hf) fun h => hn h.1
    · rcases hn with hn | hn
      · exact hn h'.1
      · rw [hr] at hn
        cases hn

/-- An archive that opens well is there, and the entries above its root are safe as far as
they were or had to be created. -/
theorem wp_open {Q : HsmResult LocalArchive → Disk (FileName κ) (Content κ) → Prop}
    (tree : s.Tree) (locks : ∀ s', C s' → C (s'.setLock root .ownerLock false))
    (cut : ∀ s', Opening root id s s' → C s')
    (ok : ∀ s', Opened root id s s' → s'.dir root = true →
      (∀ p, p <:+ root → s.dir p = true ∨ s'.safeDir p = true) →
      s'.locked = (s.setLock root .ownerLock true).locked → Q (.ok ⟨root, id⟩) s')
    (error : ∀ e s', Opening root id s s' →
      ¬ (π.Smooth ∧ s.dir [] = true ∧ s.locked root .ownerLock = false ∧ Identifies root id s) →
      Q (.error e) s') :
    (LocalArchive.open root id : Io κ _).run.wp (fsMachine π) C Q s := by
  apply Prog.wp_run_bind_of
  refine wp_lockRoot tree (fun s' hf => cut s' (.still hf)) (fun s₁ f₁ t₁ hr hs k₁ => ?_)
    fun e s' hf hn => error e s' (.still hf) fun h => hn ⟨h.1, h.2.1, h.2.2.1⟩
  rw [Prog.run_mk]
  refine Prog.wp_bind.mpr (wp_load t₁ hr (fun s' h => cut s' (.after f₁ h)) ?_ ?_)
  · intro s₂ h₂ k₂
    have hw := h₂.opening
    refine ⟨cut s₂ (.after f₁ hw), ok s₂ { h₂ with opening := .after f₁ hw } (hw.dirs hr)
      (fun p hp => (hs p hp).imp_right fun h => ?_) (k₂.trans k₁)⟩
    exact hw.safeDirs (t₁.suffix hr hp) h
  · intro e s₂ h₂ hn
    have unlocked : Opening root id s (s₂.setLock root .ownerLock false) :=
      (Opening.after f₁ h₂).trans frame_lock
    have cut₂ := cut s₂ (.after f₁ h₂)
    refine ⟨cut₂, fun s' ht => ?_, fun x s' h => ?_⟩
    · rcases ht with _ | _
      · exact cut₂
      · exact locks s₂ cut₂
    · obtain rfl := h.unlock
      refine ⟨locks s₂ cut₂, error e _ unlocked fun h => hn ⟨h.1, h.2.2.2.1, ?_⟩⟩
      intro f hf
      have := f₁.now root .backendId fun h => h
      rw [hf] at this
      obtain ⟨g, hg, hc, -⟩ := this.some_right
      rw [hc]
      exact h.2.2.2.2 g hg

end HsmRs.LocalArchive
