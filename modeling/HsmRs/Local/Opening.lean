import HsmRs.Lib.Crash
import HsmRs.Local.Helpers

/-! # Opening a root

`lock_root` creates the missing directories of a root, makes the entries of those
it created safe and takes the owner lock. Directories that it finds are left as
they are: their entries may never have become safe.
-/

namespace HsmRs

variable {κ : Type} [DecidableEq κ] {s s' : Disk (FileName κ) (Content κ)} {d root : Dir}
  {π : Policy (FileName κ) (Content κ)} {C : Disk (FileName κ) (Content κ) → Prop}

omit [DecidableEq κ] in
theorem Frame.dirs (h : Frame Named s s') (hd : s.dir d = true) : s'.dir d = true :=
  h.dir d .data (fun h => h) hd

omit [DecidableEq κ] in
theorem Frame.safeDirs (h : Frame Named s s') (hd : s.dir d = true) (hs : s.safeDir d = true) :
    s'.safeDir d = true := h.safeDir d .data (fun h => h) hd hs

theorem wp_missingDirs {Q : HsmResult (List Dir) → Disk (FileName κ) (Content κ) → Prop} (now : C s)
    (ok : ∀ ms, (∀ p ∈ ms, p ≠ [] ∧ p <:+ d) →
      (∀ p, p <:+ d → p ∈ ms ∨ ∃ q, p <:+ q ∧ s.dir q = true) →
      Q (.ok ms) s)
    (error : ∀ e, s.dir [] = false → Q (.error e) s) :
    (missingDirs d : Io κ _).run.wp (fsMachine π) C Q s := by
  have tears : ∀ d s', s.Tear (.existsDir d) s' → C s' := fun d s' ht => by
    cases ht <;> exact now
  induction d generalizing Q with
  | nil =>
    apply Prog.wp_run_bind_of
    refine wp_ask now (tears _) fun x s' h => ?_
    obtain ⟨rfl, rfl⟩ := h.existsDir rfl
    cases hd : s'.dir [] with
    | true =>
      refine ⟨now, ok [] (by simp) fun p hp => .inr ⟨[], hp, hd⟩⟩
    | false => exact ⟨now, error _ hd⟩
  | cons x p ih =>
    apply Prog.wp_run_bind_of
    refine wp_ask now (tears _) fun y s' h => ?_
    obtain ⟨rfl, rfl⟩ := h.existsDir rfl
    cases hd : s'.dir (x :: p) with
    | true => exact ⟨now, ok [] (by simp) fun q hq => .inr ⟨x :: p, hq, hd⟩⟩
    | false =>
      apply Prog.wp_run_bind_of
      refine ih (fun ms hn hs => ⟨now, ok _ ?_ ?_⟩) error
      · intro q hq
        rcases List.mem_cons.mp hq with rfl | hq
        · exact ⟨by simp, List.suffix_refl _⟩
        · exact ⟨(hn q hq).1, (hn q hq).2.trans (List.suffix_cons x p)⟩
      · intro q hq
        rcases List.suffix_cons_iff.mp hq with rfl | hq
        · exact .inl List.mem_cons_self
        · exact (hs q hq).imp_left (List.mem_cons_of_mem _)

/-- Creating a directory: it is new, it is there, its parent is missing, or the operation
fails. -/
theorem wp_createDir {α : Type} {f : Except IoError Unit → Prog (LocalSig κ) α}
    {Q : α → Disk (FileName κ) (Content κ) → Prop} (tree : s.Tree)
    (cut : ∀ s', Frame Named s s' → C s')
    (made : ∀ s', Frame Named s s' → s'.Tree → s'.dir d = true → s'.locked = s.locked →
      (f (.ok ())).wp (fsMachine π) C Q s')
    (present : s.dir d = true → (f (.error .alreadyExists)).wp (fsMachine π) C Q s)
    (orphan : s.dir d.tail = false → (f (.error .notFound)).wp (fsMachine π) C Q s)
    (fault : ∀ e s', e.kind = .other → ¬ π.Smooth → Frame Named s s' →
      (f (.error e)).wp (fsMachine π) C Q s') :
    (Prog.op (.createDir d) f : Prog (LocalSig κ) α).wp (fsMachine π) C Q s := by
  refine ⟨cut s (.refl s), fun s' ht => cut s' (ht.frame trivial), ?_⟩
  rintro (e | ⟨⟩) s' h
  · rcases h.responds_or_fails (by simp) (.inl rfl) with ⟨u, -, hr, rfl⟩ | ⟨hf, e', hk, he, -⟩
    · by_cases hd : s.dir d = true
      · simp only [Disk.respond, hd, if_true, Except.error.injEq] at hr ⊢
        exact hr ▸ present hd
      · by_cases hp : s.dir d.tail = true
        · simp [Disk.respond, hd, hp] at hr
        · simp only [Disk.respond, hd, hp, Bool.false_eq_true, if_false, Except.error.injEq] at hr ⊢
          exact hr ▸ orphan (by simpa using hp)
    · simp only [FsOp.failure, Option.some.injEq, Except.error.injEq] at he
      exact he ▸ fault e' s' hk (π.not_smooth hf) (FsStep.frame h trivial)
  · have hf : Frame Named s s' := FsStep.frame h trivial
    obtain ⟨-, -, rfl⟩ := h.createDir_ok
    exact made _ hf (h.tree tree) (by simp [Disk.mkdir]) rfl

theorem wp_createDirAll {Q : HsmResult Unit → Disk (FileName κ) (Content κ) → Prop} (tree : s.Tree)
    (cut : ∀ s', Frame Named s s' → C s')
    (ok : ∀ s', Frame Named s s' → s'.Tree → (s.dir [] = true → s'.dir d = true) →
      s'.locked = s.locked → Q (.ok ()) s')
    (error : ∀ e s', ¬ e.Definite → Frame Named s s' → ¬ (π.Smooth ∧ s.dir [] = true) →
      Q (.error e) s') :
    (createDirAll d : Io κ _).run.wp (fsMachine π) C Q s := by
  have now : C s := cut s (.refl s)
  induction d generalizing Q with
  | nil => exact ⟨now, ok s (.refl s) tree id rfl⟩
  | cons x p ih =>
    refine wp_createDir tree cut ?_ ?_ ?_ ?_
    · exact fun s' hf ht hd hk => ⟨cut s' hf, ok s' hf ht (fun _ => hd) hk⟩
    · exact fun hd => ⟨now, ok s (.refl s) tree (fun _ => hd) rfl⟩
    · intro _
      refine Prog.wp_run_bind_of (ih (fun s₁ f₁ t₁ hp k₁ => ?_) error)
      refine wp_createDir t₁ (fun s' hf => cut s' (f₁.trans hf)) ?_ ?_ ?_ ?_
      · exact fun s' hf ht hd hk =>
          ⟨cut s' (f₁.trans hf), ok s' (f₁.trans hf) ht (fun _ => hd) (hk.trans k₁)⟩
      · exact fun hd => ⟨cut s₁ f₁, ok s₁ f₁ t₁ (fun _ => hd) k₁⟩
      · refine fun hn => ⟨cut s₁ f₁, error _ s₁ id f₁ fun h => ?_⟩
        rw [List.tail_cons, hp h.2] at hn
        cases hn
      · intro e s' hk hs hf
        simp only [hk, reduceCtorEq, if_false]
        exact ⟨cut s' (f₁.trans hf), error _ s' id (f₁.trans hf) fun h => hs h.1⟩
    · intro e s' hk hs hf
      simp only [hk, reduceCtorEq, if_false]
      exact ⟨cut s' hf, error _ s' id hf fun h => hs h.1⟩

theorem wp_syncParents {ms : List Dir} {Q : HsmResult Unit → Disk (FileName κ) (Content κ) → Prop}
    (tree : s.Tree) (cut : ∀ s', Frame Named s s' → C s')
    (ok : ∀ s', Frame Named s s' → s'.Tree →
      (∀ p ∈ ms, p ≠ [] → s.dir p = true → s'.safeDir p = true) → s'.locked = s.locked →
      Q (.ok ()) s')
    (error : ∀ e s', Frame Named s s' →
      ¬ (π.Smooth ∧ ∀ p ∈ ms, s.dir p = true) → Q (.error e) s') :
    (syncParents ms : Io κ _).run.wp (fsMachine π) C Q s := by
  induction ms generalizing s with
  | nil => exact ⟨cut s (.refl s), ok s (.refl s) tree (by simp) rfl⟩
  | cons d ms ih =>
    cases d with
    | nil =>
      refine ih tree cut (fun s' hf ht hs hk => ok s' hf ht ?_ hk) fun e s' hf hr =>
        error e s' hf fun h => hr ⟨h.1, fun p hp => h.2 p (List.mem_cons_of_mem _ hp)⟩
      intro p hp hn
      rcases List.mem_cons.mp hp with rfl | hp
      · exact (hn rfl).elim
      · exact hs p hp hn
    | cons x p =>
      apply Prog.wp_run_bind_of
      refine wp_syncDir cut (fun hd => ?_) fun e s' _ hf hr => error e s' hf fun h => ?_
      case refine_2 =>
        rcases hr with hr | hr
        · exact hr h.1
        · rw [tree x p (h.2 _ List.mem_cons_self)] at hr
          cases hr
      have f₁ : Frame Named s (s.flush p) := (Disk.flushed_flush s p).frame
      refine ih (tree.of_dir rfl) (fun s' hf => cut s' (f₁.trans hf)) (fun s' hf ht hs hk => ?_)
        fun e s' hf hr => error e s' (f₁.trans hf) fun h =>
          hr ⟨h.1, fun q hq => h.2 q (List.mem_cons_of_mem _ hq)⟩
      refine ok s' (f₁.trans hf) ht (fun q hq hn hd' => ?_) hk
      rcases List.mem_cons.mp hq with rfl | hq
      · exact hf.safeDirs hd' (by simp [Disk.flush, hd'])
      · exact hs q hq hn hd'

/-- A root that has been opened is there, and the directories on its path that had to be
created have safe entries. -/
theorem wp_lockRoot {Q : HsmResult Unit → Disk (FileName κ) (Content κ) → Prop} (tree : s.Tree)
    (cut : ∀ s', Frame Named s s' → C s')
    (ok : ∀ s', Frame Named s s' → s'.Tree → s'.dir root = true →
      (∀ p, p <:+ root → s.dir p = true ∨ s'.safeDir p = true) →
      s'.locked = (s.setLock root .ownerLock true).locked → Q (.ok ()) s')
    (error : ∀ e s', Frame Named s s' →
      ¬ (π.Smooth ∧ s.dir [] = true ∧ s.locked root .ownerLock = false) → Q (.error e) s') :
    (lockRoot root : Io κ _).run.wp (fsMachine π) C Q s := by
  have now : C s := cut s (.refl s)
  apply Prog.wp_run_bind_of
  refine wp_missingDirs now (fun ms hm hs => ?_) fun e hn => error e s (.refl s) fun h => ?_
  case refine_2 =>
    rw [h.2.1] at hn
    cases hn
  have visible : ∀ p, p <:+ root → p ∈ ms ∨ s.dir p = true := fun p hp =>
    (hs p hp).imp_right fun ⟨q, hq, hd⟩ => tree.suffix hd hq
  have top : s.dir [] = true := (visible [] List.nil_suffix).resolve_left fun h => (hm [] h).1 rfl
  apply Prog.wp_run_bind_of
  refine wp_createDirAll tree cut (fun s₁ f₁ t₁ hd₁ k₁ => ?_)
    fun e s' _ hf hr => error e s' hf fun h => hr ⟨h.1, h.2.1⟩
  have hd₁ := hd₁ top
  apply Prog.wp_run_bind_of
  refine wp_syncParents t₁ (fun s' hf => cut s' (f₁.trans hf)) (fun s₂ g₂ t₂ hs₂ k₂ => ?_)
    fun e s' hf hr => error e s' (f₁.trans hf) fun h => hr ⟨h.1, fun p hp => ?_⟩
  case refine_2 => exact t₁.suffix hd₁ (hm p (List.mem_reverse.mp hp)).2
  have f₂ := f₁.trans g₂
  have safe : ∀ p, p <:+ root → s.dir p = true ∨ s₂.safeDir p = true := fun p hp =>
    (visible p hp).symm.imp_right fun h =>
      hs₂ p (List.mem_reverse.mpr h) (hm p h).1 (t₁.suffix hd₁ hp)
  apply Prog.wp_run_bind_of
  refine wp_io (cut s₂ f₂) (fun s' ht => cut s' (f₂.trans (ht.frame trivial))) ?_
  rintro (e | ⟨⟩) s₃ h₃
  · refine error _ s₃ (f₂.trans (h₃.frame trivial)) fun h => ?_
    rcases h₃.access_error with hf | hn
    · exact π.not_smooth hf h.1
    · rw [g₂.dirs hd₁] at hn
      cases hn
  obtain ⟨hr, rfl⟩ := h₃.access_ok
  refine ⟨cut s₃ f₂, fun s' ht => cut s' (f₂.trans (ht.frame trivial)), ?_⟩
  rintro (e | ⟨⟩) s₄ h₄
  · have f₄ := f₂.trans (FsStep.frame (K := Named) h₄ trivial)
    refine ⟨cut s₄ f₄, error _ s₄ f₄ fun h => ?_⟩
    rcases h₄.tryLock_error with hf | hl
    · exact π.not_smooth hf h.1
    · rw [k₂, k₁, h.2.2] at hl
      cases hl
  · have f₄ := f₂.trans (FsStep.frame (K := Named) h₄ trivial)
    obtain ⟨-, rfl⟩ := h₄.tryLock_ok
    refine ⟨cut _ f₄, ok _ f₄ (h₄.tree t₂) hr safe ?_⟩
    simp only [Disk.setLock, k₂, k₁]

end HsmRs
