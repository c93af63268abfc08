import HsmRs.Lib.Crash
import HsmRs.Local.Footprint

/-! # What the helpers do

Specifications of the helpers of `util.rs`: the disks a crash can leave, the disk
after a success, and for every error the reason it gives, a fault or something the
disk shows.
-/

namespace HsmRs

variable {κ α : Type} {s s' s'' : Disk (FileName κ) (Content κ)} {d : Dir} {n : FileName κ}
  {v : Content κ}

/-- `d` is a new and empty directory whose entry is safe. -/
structure Made (d : Dir) (s s' : Disk (FileName κ) (Content κ)) : Prop where
  absent : s.dir d = false
  dir : s'.dir d = true
  empty : ∀ n, s'.lookup d n = none
  safe : s'.safeDir d = true

/-- `n` in `d` has been linked to the synced value `v`. -/
structure Linked (d : Dir) (n : FileName κ) (v : Content κ)
    (s s' : Disk (FileName κ) (Content κ)) : Prop extends Placed d n v s s' where
  absent : s.lookup d n = none

/-- The payload of `d` holds the bytes `b`. -/
def Disk.Holds (s : Disk (FileName κ) (Content κ)) (d : Dir) (b : Bytes) : Prop :=
  ∃ synced, s.lookup d .data = some ⟨.bytes b, synced⟩

theorem Linked.before (h : Linked d n v s s') (hn : ¬ n.IsTemp) (hf : Frame Named s' s'') :
    Linked d n v s s'' := ⟨h.toPlaced.before hn hf, h.absent⟩

theorem Linked.after (h : Frame Named s s') (hn : ¬ n.IsTemp) (h' : Linked d n v s' s'') :
    Linked d n v s s'' := by
  refine ⟨.after h hn h'.toPlaced, ?_⟩
  have := h.now d n hn
  rw [h'.absent] at this
  exact this.none_right

theorem Placed.has {f : File (Content κ)} (h : Placed d n v s s') (hf : s'.Has d n f)
    (synced : ∀ g, s.Has d n g → g.synced = true) : s.Has d n f ∨ f = ⟨v, true⟩ := by
  rcases hf with hl | hs
  · rw [h.now] at hl
    exact .inr (Option.some.inj hl).symm
  · rcases h.safe with he | hu | he
    · exact .inl (.inr (he.symm.trans hs))
    · rw [hs] at hu
      obtain ⟨⟨c, x⟩, hg, -, -⟩ := hu.some_right
      obtain rfl : x = true := synced _ (.inl hg)
      rw [hg] at hu
      cases hu.synced
      exact .inl (.inl hg)
    · rw [he] at hs
      exact .inr (Option.some.inj hs).symm

theorem Placed.lasts (h : Placed d n v s s') (hl : s.Lasts d n) : s'.Lasts d n := by
  refine ⟨by simp [h.now], fun hn => ?_⟩
  rcases h.safe with he | hu | he
  · exact hl.2 (he.symm.trans hn)
  · rw [hn] at hu
    exact hl.1 hu.none_right
  · rw [he] at hn
    cases hn

theorem Disk.Safe.lasts (h : s.Safe d n v) : s.Lasts d n := by
  simp [Disk.Lasts, h.1, h.2]

def Disk.Settled (s : Disk (FileName κ) (Content κ)) (d : Dir) : Prop :=
  ∀ n, s.safeFile d n = s.lookup d n

theorem settled_flush (s : Disk (FileName κ) (Content κ)) (d : Dir) : (s.flush d).Settled d :=
  fun n => by simp only [Disk.flush, if_true]; rfl

theorem Disk.Settled.flush (h : s.Settled d) (d' : Dir) : (s.flush d').Settled d := fun n => by
  by_cases hd : d = d'
  · subst hd
    exact settled_flush s d n
  · have : (s.flush d').safeFile d n = s.safeFile d n := by simp [Disk.flush, hd]
    rw [this, h n]
    rfl

theorem Disk.Settled.safe {n : FileName κ} {v : Content κ} (h : s.Settled d)
    (hl : s.lookup d n = some ⟨v, true⟩) : s.Safe d n v := ⟨hl, (h n).trans hl⟩

namespace Disk.Holds

variable {b b' : Bytes}

theorem unique (h : s.Holds d b) (h' : s.Holds d b') : b = b' := by
  obtain ⟨x, hx⟩ := h
  obtain ⟨y, hy⟩ := h'
  rw [hx] at hy
  cases hy
  rfl

theorem frame {K : Dir → FileName κ → Prop} (h : s.Holds d b) (hf : Frame K s s')
    (hk : K d .data) : s'.Holds d b := by
  obtain ⟨x, hx⟩ := h
  have := hf.now d .data hk
  rw [hx] at this
  obtain ⟨⟨c, y⟩, hg, hc, -⟩ := this.some_left
  exact ⟨y, by rw [hg]; simpa using hc⟩

theorem of_frame {K : Dir → FileName κ → Prop} (h : s'.Holds d b) (hf : Frame K s s')
    (hk : K d .data) : s.Holds d b := by
  obtain ⟨x, hx⟩ := h
  have := hf.now d .data hk
  rw [hx] at this
  obtain ⟨⟨c, y⟩, hg, hc, -⟩ := this.some_right
  exact ⟨y, by rw [hg]; simpa using hc.symm⟩

theorem dir (h : s.Holds d b) : s.dir d = true := by
  obtain ⟨x, hx⟩ := h
  by_contra hd
  simp [Disk.lookup, hd] at hx

end Disk.Holds

variable [DecidableEq κ]

theorem frame_lock {K : Dir → FileName κ → Prop} {b : Bool} : Frame K s (s.setLock d n b) :=
  ⟨fun _ _ _ => .refl _, fun _ _ _ => .inl rfl, fun _ _ _ h => h, fun _ _ _ _ h => h, fun _ h => h⟩

theorem setLock_restore (hl : s.locked d n = false) (hs : s'.locked = (s.setLock d n true).locked) :
    (s'.setLock d n false).locked = s.locked := by
  funext d' n'
  simp only [Disk.setLock] at hs ⊢
  rw [hs]
  split
  · rename_i h
    rw [h.1, h.2, hl]
  · rename_i h
    exact if_neg h

variable {π : Env (FileName κ) (Content κ)} {C : Disk (FileName κ) (Content κ) → Prop}

theorem wp_existsFile {Q : HsmResult Bool → Disk (FileName κ) (Content κ) → Prop} (now : C s)
    (seen : π.statFaults = false) (ok : Q (.ok (s.lookup d n).isSome) s) :
    (existsFile d n).run.wp π.machine C Q s := by
  refine wp_ask now (fun s' ht => ?_) fun x s' h => ?_
  · cases ht <;> exact now
  · obtain ⟨rfl, rfl⟩ := h.existsFile seen
    exact ok

theorem wp_readFile {Q : HsmResult (Content κ) → Disk (FileName κ) (Content κ) → Prop} (now : C s)
    (ok : ∀ f, s.lookup d n = some f → Q (.ok f.content) s)
    (error : ∀ e, ¬ e.Definite → (¬ π.Smooth ∨ s.lookup d n = none) → Q (.error e) s) :
    (readFile d n).run.wp π.machine C Q s := by
  refine wp_io now (fun s' ht => ?_) ?_
  · cases ht <;> exact now
  rintro (e | c) s' h
  · obtain rfl := h.read_state
    exact error _ id (h.read_error.imp_left π.not_smooth)
  · obtain ⟨f, hl, rfl, rfl⟩ := h.read_ok
    exact ok f hl

theorem wp_syncFile {Q : HsmResult Unit → Disk (FileName κ) (Content κ) → Prop}
    (cut : ∀ s', Frame Named s s' → C s')
    (ok : ∀ f, s.lookup d n = some f → Q (.ok ()) (s.put d n (some { f with synced := true })))
    (error : ∀ e s', ¬ e.Definite → Frame Named s s' →
      (¬ π.Smooth ∨ s.lookup d n = none) → Q (.error e) s') :
    (syncFile d n).run.wp π.machine C Q s := by
  refine wp_io (cut s (.refl s)) (fun s' ht => cut s' (ht.frame trivial)) ?_
  rintro (e | ⟨⟩) s' h
  · exact error _ s' id (h.frame trivial) (h.syncFile_error.imp_left π.not_smooth)
  · obtain ⟨f, hf, rfl⟩ := h.syncFile_ok
    exact ok f hf

theorem wp_syncDir {Q : HsmResult Unit → Disk (FileName κ) (Content κ) → Prop}
    (cut : ∀ s', Frame Named s s' → C s') (ok : s.dir d = true → Q (.ok ()) (s.flush d))
    (error : ∀ e s', ¬ e.Definite → Frame Named s s' →
      (¬ π.Smooth ∨ s.dir d = false) → Q (.error e) s') :
    (syncDir d).run.wp π.machine C Q s := by
  refine wp_io (cut s (.refl s)) (fun s' ht => cut s' (ht.frame trivial)) ?_
  rintro (e | ⟨⟩) s' h
  · exact error _ s' id (h.frame trivial) (h.syncDir_error.imp_left π.not_smooth)
  · obtain ⟨hd, rfl⟩ := h.syncDir_ok
    exact ok hd

theorem wp_newLayout {Q : HsmResult String → Disk (FileName κ) (Content κ) → Prop}
    (cut : ∀ s', Frame Named s s' → C s')
    (ok : ∀ u s', π.uuid s u → s'.issued u = true → Made (u :: d) s s' → Frame Named s s' →
      s'.locked = s.locked → Q (.ok u) s')
    (error : ∀ e s', ¬ e.Definite → Frame Named s s' →
      (¬ π.Smooth ∨ s.dir d = false) → Q (.error e) s') :
    (newLayout d : Io κ String).run.wp π.machine C Q s := by
  apply Prog.wp_run_bind_of
  refine wp_ask (cut s (.refl s)) (fun s' ht => cut s' (ht.frame trivial)) fun u s₁ h₁ => ?_
  obtain ⟨hu, rfl⟩ := h₁.uuid
  have f₁ : Frame Named s (s.issue u) := h₁.frame trivial
  apply Prog.wp_run_bind_of
  refine wp_io (cut _ f₁) (fun s' ht => cut s' (f₁.trans (ht.frame trivial))) ?_
  rintro (e | ⟨⟩) s₂ h₂
  · refine error _ s₂ id (f₁.trans (h₂.frame trivial)) ?_
    rcases h₂.createDir_error with hf | hd | hd
    · exact .inl (π.not_smooth hf)
    · refine .inl fun hs => ?_
      have := hs.dir s u d hu
      rw [show s.dir (u :: d) = true from hd] at this
      cases this
    · exact .inr hd
  have f₂ := f₁.trans (h₂.frame (K := Named) trivial)
  obtain ⟨hn, hd, rfl⟩ := h₂.createDir_ok
  have hd : s.dir d = true := hd
  have hp : ((s.issue u).mkdir (u :: d)).dir d = true := by simp [Disk.mkdir, Disk.issue, hd]
  apply Prog.wp_run_bind_of
  refine wp_io (cut _ f₂) (fun s' ht => cut s' (f₂.trans (ht.frame trivial))) ?_
  rintro (e | ⟨⟩) s₃ h₃
  · refine error _ s₃ id (f₂.trans (h₃.frame trivial)) ?_
    rcases h₃.syncDir_error with hf | hf
    · exact .inl (π.not_smooth hf)
    · rw [hp] at hf
      cases hf
  · have f₃ := f₂.trans (h₃.frame (K := Named) trivial)
    obtain ⟨-, rfl⟩ := h₃.syncDir_ok
    refine ⟨cut _ f₃, ok u _ hu (by simp [Disk.flush, Disk.mkdir, Disk.issue]) ?_ f₃ rfl⟩
    exact ⟨hn, by simp [Disk.flush, Disk.mkdir], fun n => by
      simp [Disk.lookup, Disk.flush, Disk.mkdir],
      by simp [Disk.flush, Disk.mkdir]⟩

theorem wp_digestFile [Crates]
    {Q : HsmResult (Nat × ContentDigest) → Disk (FileName κ) (Content κ) → Prop} (now : C s)
    (ok : ∀ b, s.Holds d b → Q (.ok (b.length, digestOf b)) s)
    (error : ∀ e, ¬ e.Definite → (¬ π.Smooth ∨ ∀ b, ¬ s.Holds d b) → Q (.error e) s) :
    (digestFile d : Io κ _).run.wp π.machine C Q s := by
  apply Prog.wp_run_bind_of
  refine wp_readFile now ?_ ?_
  · rintro ⟨c, x⟩ hl
    cases c with
    | bytes b => exact ⟨now, ok b ⟨x, hl⟩⟩
    | _ =>
      refine ⟨now, error _ id (.inr ?_)⟩
      rintro b ⟨y, hy⟩
      rw [hl] at hy
      cases hy
  · intro e he hr
    refine error e he (hr.imp_right fun hn => ?_)
    rintro b ⟨x, hx⟩
    rw [hn] at hx
    cases hx

/-- The scope of a transfer lock, for conditions that do not depend on locks. -/
theorem wp_withTransferLock {p : Io κ α} {Q : HsmResult α → Disk (FileName κ) (Content κ) → Prop}
    (now : C s) (locks : ∀ s' b, C s' → C (s'.setLock d .transferLock b))
    (missing : ∀ e, ¬ e.Definite → (¬ π.Smooth ∨ s.dir d = false) → Q (.error e) s)
    (busy : ∀ m s', Frame Named s s' → (¬ π.Smooth ∨ s.locked d .transferLock = true) →
      Q (.error (.busy m)) s')
    (body : s.dir d = true → s.locked d .transferLock = false → p.run.wp π.machine C
      (fun r s' => Q r (s'.setLock d .transferLock false)) (s.setLock d .transferLock true)) :
    (withTransferLock d p).run.wp π.machine C Q s := by
  apply Prog.wp_run_bind_of
  refine wp_io now (fun s' ht => ?_) ?_
  · cases ht <;> exact now
  rintro (e | ⟨⟩) s₁ h₁
  · have : s₁ = s := by cases h₁.tear <;> rfl
    subst this
    exact missing _ id (h₁.access_error.imp_left π.not_smooth)
  obtain ⟨hd, rfl⟩ := h₁.access_ok
  have torn : ∀ {s'}, s₁.Tear (.tryLock d .transferLock) s' →
      s' = s₁ ∨ s' = s₁.setLock d .transferLock true := by
    rintro s' (_ | _)
    · exact .inl rfl
    · by_cases hl : s₁.locked d .transferLock = true
      · exact .inl (by simp [Disk.respond, hl])
      · exact .inr (by simp [Disk.respond, hl])
  have kept : ∀ {s'}, s₁.Tear (.tryLock d .transferLock) s' → C s' := fun ht => by
    rcases torn ht with rfl | rfl
    · exact now
    · exact locks _ _ now
  apply Prog.wp_run_bind_of
  refine ⟨now, fun s' ht => kept ht, ?_⟩
  rintro (e | ⟨⟩) s₂ h₂
  · refine ⟨kept h₂.tear, busy _ s₂ ?_ (h₂.tryLock_error.imp_left π.not_smooth)⟩
    rcases torn h₂.tear with rfl | rfl
    · exact .refl _
    · exact frame_lock
  · refine ⟨kept h₂.tear, ?_⟩
    obtain ⟨hl, rfl⟩ := h₂.tryLock_ok
    refine Prog.wp_bind.mpr (Prog.wp_mono (body hd hl) (fun _ h => h) fun r s' hc hq => ?_)
    refine ⟨hc, fun s₃ ht => ?_, fun x s₃ h₃ => ?_⟩
    · rcases ht with _ | _
      · exact hc
      · exact locks _ _ hc
    · obtain rfl := h₃.unlock
      exact ⟨locks _ _ hc, hq⟩

theorem wp_publishReceipt {Q : HsmResult Unit → Disk (FileName κ) (Content κ) → Prop}
    (hn : ¬ n.IsTemp)
    (cut : ∀ s', Frame Named s s' ∨ Linked d n v s s' → C s')
    (ok : ∀ s', Linked d n v s s' → s'.Safe d n v → s'.locked = s.locked → Q (.ok ()) s')
    (error : ∀ e s', ¬ e.Definite → Frame Named s s' ∨ Linked d n v s s' →
      (¬ π.Smooth ∨ s.dir d = false ∨ s.lookup d n ≠ none) → Q (.error e) s') :
    (publishReceipt d n v).run.wp π.machine C Q s := by
  refine wp_stage (t := .receiptTmp) (fun _ => trivial) (fun s u hs => hs.receiptTmp s u d)
    (fun s' h => cut s' (.inl h)) (fun e s' h he => error _ s' id (.inl h) (he.imp_right .inl)) ?_
  intro u s₁ hd f₁ k₁ hl
  have hd₁ : s₁.dir d = true := f₁.dir d n hn hd
  have spares : ¬ Named d ((.receiptTmp u : FileName κ)) := fun h => h trivial
  have linked : s₁.lookup d n = none → Linked d n v s (s₁.put d n (some ⟨v, true⟩)) :=
    fun ha => .after f₁ hn ⟨placed_put hd₁, ha⟩
  have tear : ∀ s', s₁.Tear (.hardLink d (.receiptTmp u) n) s' →
      Frame Named s s' ∨ Linked d n v s s' := by
    rintro s' (_ | _)
    · exact .inl f₁
    · simp only [Disk.respond, hl]
      cases ha : s₁.lookup d n with
      | some g => exact .inl f₁
      | none => exact .inr (linked ha)
  apply Prog.wp_run_bind_of
  refine wp_io (cut s₁ (.inl f₁)) (fun s' ht => cut s' (tear s' ht)) ?_
  rintro (e | ⟨⟩) s₂ h₂
  · refine error _ s₂ id (tear s₂ h₂.tear) ?_
    rcases h₂.hardLink_error with hf | hf | hf
    · exact .inl (π.not_smooth hf)
    · rw [hl] at hf
      cases hf
    · refine .inr (.inr fun ha => hf ?_)
      have := f₁.now d n hn
      rw [ha] at this
      exact Upgrade.none_left.mp this
  obtain ⟨f, hf, ha, rfl⟩ := h₂.hardLink_ok
  rw [hl] at hf
  cases hf
  apply Prog.wp_run_bind_of
  refine wp_settle hn (linked ha).toPlaced (fun s' h => cut s' (.inr ⟨h, (linked ha).absent⟩)) ?_ ?_
  · intro s₃ h₃ hs hk
    refine ⟨cut s₃ (.inr ⟨h₃, (linked ha).absent⟩), fun s' ht => ?_, fun x s' h' => ?_⟩
    · exact cut s' (.inr ⟨h₃.before hn (ht.frame spares), (linked ha).absent⟩)
    · have f' : Frame Named s₃ s' := h'.frame spares
      have hp := h₃.before hn f'
      have hlink : Linked d n v s s' := ⟨hp, (linked ha).absent⟩
      refine ⟨cut s' (.inr hlink), ok s' hlink (hs.frame f' hn) ?_⟩
      have hk : s₃.locked = s.locked := hk.trans k₁
      rcases h'.tear with _ | _
      · exact hk
      · simp only [Disk.respond]
        split <;> exact hk
  · intro e s₃ h₃ hf
    exact error _ s₃ id (.inr ⟨h₃, (linked ha).absent⟩) (.inl hf)

end HsmRs
