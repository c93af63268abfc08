import HsmRs.Lib.Answers
import HsmRs.Local.Util

/-! # Putting a file in place

`write_json` replaces a file and `publish_receipt` links a new one. Cut off or
failed, either has left the named files alone or has put the value in place; once
it has answered well the value is in place and safe.
-/

namespace HsmRs

variable {κ α β : Type} {s s' s'' : Disk (FileName κ) (Content κ)} {d : Dir} {n : FileName κ}
  {v : Content κ}

def Named (_ : Dir) (n : FileName κ) : Prop := ¬ n.IsTemp

def NamedBut (d : Dir) (n : FileName κ) (d' : Dir) (n' : FileName κ) : Prop :=
  ¬ n'.IsTemp ∧ ¬ (d' = d ∧ n' = n)

theorem NamedBut.named {d' : Dir} {n' : FileName κ} (h : NamedBut d n d' n') : Named d' n' := h.1

/-- `n` in `d` now holds the synced value `v`; its safe version is an old one or `v`. -/
structure Placed (d : Dir) (n : FileName κ) (v : Content κ)
    (s s' : Disk (FileName κ) (Content κ)) : Prop where
  others : Frame (NamedBut d n) s s'
  now : s'.lookup d n = some ⟨v, true⟩
  safe : s'.safeFile d n = s.safeFile d n ∨ Upgrade (s.lookup d n) (s'.safeFile d n) ∨
    s'.safeFile d n = some ⟨v, true⟩

/-- Both versions of `n` in `d` hold the synced value `v`. -/
def Disk.Safe (s : Disk (FileName κ) (Content κ)) (d : Dir) (n : FileName κ)
    (v : Content κ) : Prop :=
  s.lookup d n = some ⟨v, true⟩ ∧ s.safeFile d n = some ⟨v, true⟩

theorem Disk.Safe.frame {K : Dir → FileName κ → Prop} (h : s.Safe d n v) (hf : Frame K s s')
    (hk : K d n) : s'.Safe d n v := by
  have hn := hf.now d n hk
  rw [h.1] at hn
  refine ⟨hn.synced, ?_⟩
  rcases hf.safe d n hk with he | hu
  · rw [he, h.2]
  · rw [h.1] at hu
    exact hu.synced

namespace Placed

theorem after (h : Frame Named s s') (hn : ¬ n.IsTemp) (h' : Placed d n v s' s'') :
    Placed d n v s s'' where
  others := (h.mono fun _ _ => NamedBut.named).trans h'.others
  now := h'.now
  safe := by
    have hs := h.safe d n hn
    have hl := h.now d n hn
    rcases h'.safe with he | hu | he
    · rw [he]
      exact hs.imp id .inl
    · exact .inr (.inl (hl.trans hu))
    · exact .inr (.inr he)

theorem before (h : Placed d n v s s') (hn : ¬ n.IsTemp) (h' : Frame Named s' s'') :
    Placed d n v s s'' where
  others := h.others.trans (h'.mono fun _ _ => NamedBut.named)
  now := by
    have hl := h'.now d n hn
    rw [h.now] at hl
    exact hl.synced
  safe := by
    rcases h'.safe d n hn with he | hu
    · rw [he]
      exact h.safe
    · rw [h.now] at hu
      exact .inr (.inr hu.synced)

theorem dir (h : Placed d n v s s') : s'.dir d = true := by
  by_contra hd
  have := h.now
  simp [Disk.lookup, hd] at this

end Placed

section Specs

variable [DecidableEq κ] {π : Env (FileName κ) (Content κ)}
  {C : Disk (FileName κ) (Content κ) → Prop}

omit [DecidableEq κ] in
/-- No operation fails, and the names that are handed out name nothing on the disk. -/
structure Policy.Smooth (π : Policy (FileName κ) (Content κ)) : Prop where
  faultless : π.faults = false
  dir : ∀ s u d, π.uuid s u → s.dir (u :: d) = false
  tmp : ∀ s u d, π.uuid s u → s.lookup d (.tmp u) = none
  receiptTmp : ∀ s u d, π.uuid s u → s.lookup d (.receiptTmp u) = none

omit [DecidableEq κ] in
theorem Policy.not_smooth {π : Policy (FileName κ) (Content κ)} (h : π.faults = true) :
    ¬ π.Smooth := fun hs => by
  simp [hs.faultless] at h

theorem wp_io {o : FsOp (FileName κ) (Content κ)} {f : o.Ans → Except IoError α}
    {Q : HsmResult α → Disk (FileName κ) (Content κ) → Prop} (now : C s)
    (tear : ∀ s', s.Tear o s' → C s')
    (step : ∀ x s', FsStep π s o x s' → Q ((f x).mapError .io) s') :
    (io o f).run.wp π.machine C Q s :=
  ⟨now, tear, fun x s' h => ⟨tear s' h.tear, step x s' h⟩⟩

theorem wp_ask {o : FsOp (FileName κ) (Content κ)}
    {Q : HsmResult o.Ans → Disk (FileName κ) (Content κ) → Prop} (now : C s)
    (tear : ∀ s', s.Tear o s' → C s')
    (step : ∀ x s', FsStep π s o x s' → Q (.ok x) s') :
    (ask o).run.wp π.machine C Q s :=
  ⟨now, tear, fun x s' h => ⟨tear s' h.tear, step x s' h⟩⟩

theorem wp_mapErr {g : HsmError → HsmError} {p : Io κ α}
    {Q : HsmResult α → Disk (FileName κ) (Content κ) → Prop}
    (h : p.run.wp π.machine C (fun r s => Q (r.mapError g) s) s) :
    (mapErr g p).run.wp π.machine C Q s :=
  Prog.wp_bind.mpr (Prog.wp_mono h (fun _ hc => hc) fun _ _ hc hq => ⟨hc, hq⟩)

theorem wp_stage {t : String → FileName κ} {rest : String → Io κ α}
    {Q : HsmResult α → Disk (FileName κ) (Content κ) → Prop} (ht : ∀ u, (t u).IsTemp)
    (novel : ∀ s u, π.Smooth → π.uuid s u → s.lookup d (t u) = none)
    (cut : ∀ s', Frame Named s s' → C s')
    (error : ∀ e s', Frame Named s s' → (¬ π.Smooth ∨ s.dir d = false) → Q (.error (.io e)) s')
    (ok : ∀ u s', s.dir d = true → Frame Named s s' → s'.locked = s.locked →
      s'.lookup d (t u) = some ⟨v, true⟩ → (rest u).run.wp π.machine C Q s') :
    (do
      let u ← uuid
      createNew d (t u) v
      syncFile d (t u)
      rest u : Io κ α).run.wp π.machine C Q s := by
  have spares : ∀ u, ¬ Named d (t u) := fun u h => h (ht u)
  apply Prog.wp_run_bind_of
  refine wp_ask (cut s (.refl s)) (fun s' ht => cut s' (ht.frame trivial)) fun u s₁ h₁ => ?_
  obtain ⟨hu, rfl⟩ := h₁.uuid
  have f₁ : Frame Named s (s.issue u) := h₁.frame trivial
  apply Prog.wp_run_bind_of
  refine wp_io (cut _ f₁) (fun s' ht => cut s' (f₁.trans (ht.frame (spares u)))) ?_
  rintro (e | ⟨⟩) s₂ h₂
  · have f₂ := f₁.trans (h₂.frame (spares u))
    refine error e s₂ f₂ ?_
    rcases h₂.create_error with hf | hd | hl
    · exact .inl (π.not_smooth hf)
    · exact .inr hd
    · exact .inl fun hs => hl (novel s u hs hu)
  have f₂ := f₁.trans (h₂.frame (spares u))
  obtain ⟨hd, -, rfl⟩ := h₂.create_ok
  apply Prog.wp_run_bind_of
  refine wp_io (cut _ f₂) (fun s' ht => cut s' (f₂.trans (ht.frame trivial))) ?_
  have hl : ((s.issue u).put d (t u) (some ⟨v, false⟩)).lookup d (t u) = some ⟨v, false⟩ := by
    simp [hd]
  rintro (e | ⟨⟩) s₃ h₃
  · refine error e s₃ (f₂.trans (h₃.frame trivial)) ?_
    rcases h₃.syncFile_error with hf | hn
    · exact .inl (π.not_smooth hf)
    · rw [hl] at hn
      cases hn
  · obtain ⟨f, hf, hs⟩ := h₃.syncFile_ok
    rw [hl] at hf
    cases hf
    refine ok u s₃ hd (f₂.trans (h₃.frame trivial)) (by rw [hs]; rfl) ?_
    rw [hs]
    simp [hd]

/-- The directory sync that ends both publications. -/
theorem wp_settle {s₀ : Disk (FileName κ) (Content κ)} {g : HsmError → HsmError}
    {Q : HsmResult Unit → Disk (FileName κ) (Content κ) → Prop} (hn : ¬ n.IsTemp)
    (hp : Placed d n v s₀ s) (cut : ∀ s', Placed d n v s₀ s' → C s')
    (ok : ∀ s', Placed d n v s₀ s' → s'.Safe d n v → s'.locked = s.locked → Q (.ok ()) s')
    (error : ∀ e s', Placed d n v s₀ s' → ¬ π.Smooth → Q (.error (g (.io e))) s') :
    (mapErr g (syncDir d)).run.wp π.machine C Q s := by
  apply wp_mapErr
  refine wp_io (cut s hp) (fun s' ht => cut s' (hp.before hn (ht.frame trivial))) ?_
  rintro (e | ⟨⟩) s' h
  · refine error e s' (hp.before hn (h.frame trivial)) ?_
    rcases h.syncDir_error with hf | hd
    · exact π.not_smooth hf
    · rw [hp.dir] at hd
      cases hd
  · have hp' := hp.before hn (h.frame trivial)
    obtain ⟨hd, rfl⟩ := h.syncDir_ok
    refine ok _ hp' ⟨hp'.now, ?_⟩ rfl
    simpa [Disk.flush] using hp.now

theorem placed_put (hd : s.dir d = true) :
    Placed d n v s (s.put d n (some ⟨v, true⟩)) where
  others := Disk.frame_put fun h => h.2 ⟨rfl, rfl⟩
  now := by simp [hd]
  safe := .inl rfl

theorem wp_writeJson {Q : HsmResult Unit → Disk (FileName κ) (Content κ) → Prop}
    (hn : ¬ n.IsTemp)
    (cut : ∀ s', Frame Named s s' ∨ Placed d n v s s' → C s')
    (ok : ∀ s', Placed d n v s s' → s'.Safe d n v → s'.locked = s.locked → Q (.ok ()) s')
    (error : ∀ e s', ¬ e.Definite → Frame Named s s' ∨ Placed d n v s s' →
      (¬ π.Smooth ∨ s.dir d = false) → Q (.error e) s') :
    (writeJson d n v).run.wp π.machine C Q s := by
  refine wp_stage (t := .tmp) (fun _ => trivial) (fun s u hs => hs.tmp s u d)
    (fun s' h => cut s' (.inl h))
    (fun e s' h he => error _ s' id (.inl h) he) fun u s₁ hd f₁ k₁ hl => ?_
  have hd₁ : s₁.dir d = true := f₁.dir d n hn hd
  have spares : ∀ u, ¬ Named d ((.tmp u : FileName κ)) := fun _ h => h trivial
  have placed : Placed d n v s ((s₁.put d (.tmp u) none).put d n (some ⟨v, true⟩)) :=
    Placed.after (f₁.trans (Disk.frame_put (spares u))) hn (placed_put hd₁)
  have tear : ∀ s', s₁.Tear (.rename d (.tmp u) n) s' →
      Frame Named s s' ∨ Placed d n v s s' := by
    rintro s' (_ | _)
    · exact .inl f₁
    · refine .inr ?_
      simpa [Disk.respond, hl] using placed
  apply Prog.wp_run_bind_of
  refine wp_io (cut s₁ (.inl f₁)) (fun s' ht => cut s' (tear s' ht)) ?_
  rintro (e | ⟨⟩) s₂ h₂
  · refine error _ s₂ id (tear s₂ h₂.tear) (.inl ?_)
    rcases h₂.rename_error with hf | hn
    · exact π.not_smooth hf
    · rw [hl] at hn
      cases hn
  · obtain ⟨f, hf, rfl⟩ := h₂.rename_ok
    rw [hl] at hf
    cases hf
    exact wp_settle hn placed (fun s' h => cut s' (.inr h))
      (fun s' hp hs hk => ok s' hp hs (hk.trans k₁))
      fun e s' h hf => error _ s' id (.inr h) (.inl hf)

end Specs

end HsmRs
