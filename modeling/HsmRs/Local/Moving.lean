import HsmRs.Local.Executor
import HsmRs.Local.Helpers

/-! # What a copy does

A copy writes the payload of its destination and nothing else by name, and not even
that once the destination is sealed.
-/

namespace HsmRs

variable {κ : Type} {s s' s'' : Disk (FileName κ) (Content κ)} {ctx : OperationContext}
  {source destination : DataEndpoint} {d : Dir} {n : FileName κ} {x : Bool}

section

variable [Crates]

def Copies (destination : DataEndpoint) (s s' : Disk (FileName κ) (Content κ)) : Prop :=
  Frame Named s s' ∨ ∃ e, decodeEndpoint destination = .ok e ∧ s.lookup e.root .sealed = none ∧
    Frame (NamedBut e.root .data) s s'

structure Copyable (ctx : OperationContext) (source destination : DataEndpoint)
    (s : Disk (FileName κ) (Content κ)) : Prop where
  validate : ctx.validate = .ok ()
  reads : ∃ e b, decodeEndpoint source = .ok e ∧ s.Holds e.root b ∧
    s.locked e.root .transferLock = false
  writes : ∃ e, decodeEndpoint destination = .ok e ∧ s.dir e.root = true ∧
    s.lookup e.root .sealed = none ∧ s.locked e.root .transferLock = false
  distinct : ∀ e e', decodeEndpoint source = .ok e → decodeEndpoint destination = .ok e' →
    e.root ≠ e'.root

variable [DecidableEq κ]

theorem Copies.unlock (h : Copies destination (s.setLock d n x) s') : Copies destination s s' := by
  rcases h with hf | ⟨e, he, hs, hf⟩
  · exact .inl (frame_lock.trans hf)
  · exact .inr ⟨e, he, hs, frame_lock.trans hf⟩

theorem Copies.lock (h : Copies destination s s') : Copies destination s (s'.setLock d n x) := by
  rcases h with hf | ⟨e, he, hs, hf⟩
  · exact .inl (hf.trans frame_lock)
  · exact .inr ⟨e, he, hs, hf.trans frame_lock⟩

end

variable [DecidableEq κ] {π : Policy (FileName κ) (Content κ)}
  {C : Disk (FileName κ) (Content κ) → Prop}

theorem wp_connectBackend {Q : HsmResult Unit → Disk (FileName κ) (Content κ) → Prop} (now : C s)
    (ok : s.dir d = true → Q (.ok ()) s)
    (error : ∀ e, (¬ π.Smooth ∨ s.dir d = false) → Q (.error e) s) :
    (connectBackend d : Io κ Unit).run.wp (fsMachine π) C Q s := by
  have kept : ∀ {s'}, s.Tear (.access d) s' → s' = s := fun ht => by cases ht <;> rfl
  refine ⟨now, fun s' ht => kept ht ▸ now, ?_⟩
  rintro (e | ⟨⟩) s' h
  · obtain rfl := kept h.tear
    exact ⟨now, error _ (h.access_error.imp_left π.not_smooth)⟩
  · obtain ⟨hd, rfl⟩ := h.access_ok
    exact ⟨now, ok hd⟩

theorem wp_transfer {src dst : Dir} {Q : HsmResult Unit → Disk (FileName κ) (Content κ) → Prop}
    (cut : ∀ s', Frame (NamedBut dst .data) s s' → C s')
    (ok : ∀ c s', s' = s.put dst .data (some ⟨c, false⟩) → s.dir dst = true →
      (π.exact = true → ∃ f, s.lookup src .data = some f ∧ c = f.content) → Q (.ok ()) s')
    (error : ∀ e s', Frame (NamedBut dst .data) s s' →
      (¬ π.Smooth ∨ s.lookup src .data = none ∨ s.dir dst = false) → Q (.error e) s') :
    (transfer src dst : Io κ Unit).run.wp (fsMachine π) C Q s := by
  have spares : (FsOp.transfer src dst .data : FsOp (FileName κ) (Content κ)).Spares
      (NamedBut dst .data) := fun h => h.2 ⟨rfl, rfl⟩
  refine ⟨cut s (.refl s), fun s' ht => cut s' (ht.frame spares), ?_⟩
  rintro (e | ⟨⟩) s' h
  · have hf : Frame (NamedBut dst .data) s s' := h.frame spares
    exact ⟨cut s' hf, error _ s' hf (h.transfer_error.imp_left π.not_smooth)⟩
  · have hf : Frame (NamedBut dst .data) s s' := h.frame spares
    obtain ⟨c, hd, hs, hc⟩ := h.transfer_ok
    exact ⟨cut s' hf, ok c s' hs hd hc⟩

variable [Crates]

theorem wp_copyLocked {src dst : Dir}
    {Q : HsmResult TransferEvidence → Disk (FileName κ) (Content κ) → Prop}
    (cut : ∀ s', Frame Named s s' ∨
      s.lookup dst .sealed = none ∧ Frame (NamedBut dst .data) s s' → C s')
    (ok : ∀ b s', s.lookup dst .sealed = none → Frame (NamedBut dst .data) s s' → s'.Holds dst b →
      (π.exact = true → s.Holds src b) → s'.locked = s.locked →
      Q (.ok ⟨b.length, digestOf b⟩) s')
    (error : ∀ e s', (Frame Named s s' ∨
      s.lookup dst .sealed = none ∧ Frame (NamedBut dst .data) s s') →
      ¬ (π.Smooth ∧ π.exact = true ∧ (∃ b, s.Holds src b) ∧ s.dir dst = true ∧
        s.lookup dst .sealed = none) → Q (.error e) s') :
    (do
      if ← existsFile dst .sealed then throw .fenced
      connectBackend src
      connectBackend dst
      transfer src dst
      let (length, digest) ← digestFile dst
      return ⟨length, digest⟩ : Io κ TransferEvidence).run.wp (fsMachine π) C Q s := by
  have now : C s := cut s (.inl (.refl s))
  have fails : ∀ e, ¬ (π.Smooth ∧ π.exact = true ∧ (∃ b, s.Holds src b) ∧ s.dir dst = true ∧
      s.lookup dst .sealed = none) → Q (.error e) s := fun e h => error e s (.inl (.refl s)) h
  apply Prog.wp_run_bind_of
  refine wp_existsFile now rfl ?_
  cases hl : s.lookup dst .sealed with
  | some f => exact ⟨now, fails _ fun h => by rw [hl] at h; cases h.2.2.2.2⟩
  | none =>
  apply Prog.wp_run_bind_of
  refine wp_connectBackend now (fun _ => ?_) fun e hr => fails e fun h => ?_
  case refine_2 =>
    obtain ⟨hs, -, ⟨b, hb⟩, -, -⟩ := h
    rcases hr with hr | hr
    · exact hr hs
    · rw [hb.dir] at hr
      cases hr
  apply Prog.wp_run_bind_of
  refine wp_connectBackend now (fun hd => ?_) fun e hr => fails e fun h => ?_
  case refine_2 =>
    rcases hr with hr | hr
    · exact hr h.1
    · rw [h.2.2.2.1] at hr
      cases hr
  apply Prog.wp_run_bind_of
  refine wp_transfer (fun s' hf => cut s' (.inr ⟨hl, hf⟩)) ?_ fun e s' hf hr =>
    error e s' (.inr ⟨hl, hf⟩) fun h => ?_
  case refine_2 =>
    obtain ⟨hs, -, ⟨b, x, hb⟩, hd, -⟩ := h
    rcases hr with hr | hr | hr
    · exact hr hs
    · rw [hb] at hr
      cases hr
    · rw [hd] at hr
      cases hr
  intro c s₁ hs₁ _ hc
  have f₁ : Frame (NamedBut dst .data) s s₁ := hs₁ ▸ Disk.frame_put fun h => h.2 ⟨rfl, rfl⟩
  have l₁ : s₁.lookup dst .data = some ⟨c, false⟩ := by simp [hs₁, hd]
  have now₁ : C s₁ := cut s₁ (.inr ⟨hl, f₁⟩)
  apply Prog.wp_run_bind_of
  refine wp_digestFile now₁ (fun b hb => ?_) fun e _ hr => error e s₁ (.inr ⟨hl, f₁⟩) fun h => ?_
  · refine ⟨now₁, ok b s₁ hl f₁ hb (fun he => ?_) (by rw [hs₁]; rfl)⟩
    obtain ⟨⟨c', y⟩, hf, rfl⟩ := hc he
    obtain ⟨x, hx⟩ := hb
    rw [l₁] at hx
    cases hx
    exact ⟨y, hf⟩
  · obtain ⟨hs, he, ⟨b, x, hb⟩, -, -⟩ := h
    obtain ⟨f, hf, rfl⟩ := hc he
    rw [hb] at hf
    cases hf
    rcases hr with hr | hr
    · exact hr hs
    · exact hr b ⟨false, l₁⟩

theorem wp_copy {Q : HsmResult TransferEvidence → Disk (FileName κ) (Content κ) → Prop}
    (locks : ∀ s' d b, C s' → C (s'.setLock d .transferLock b))
    (cut : ∀ s', Copies destination s s' → C s')
    (ok : ∀ e e' b s', decodeEndpoint source = .ok e → decodeEndpoint destination = .ok e' →
      s.lookup e'.root .sealed = none → Frame (NamedBut e'.root .data) s s' →
      s'.Holds e'.root b → (π.exact = true → s.Holds e.root b) → s'.locked = s.locked →
      Q (.ok ⟨b.length, digestOf b⟩) s')
    (error : ∀ e s', Copies destination s s' →
      ¬ (π.Smooth ∧ π.exact = true ∧ Copyable ctx source destination s) → Q (.error e) s') :
    (LocalDataMover.copy ctx source destination : Io κ _).run.wp (fsMachine π) C Q s := by
  have now : C s := cut s (.inl (.refl s))
  have fails : ∀ e, ¬ Copyable ctx source destination s → Q (.error e) s :=
    fun e h => error e s (.inl (.refl s)) fun hc => h hc.2.2
  apply Prog.wp_run_bind_of
  cases hv : ctx.validate with
  | error e =>
    refine ⟨now, fails e fun h => ?_⟩
    rw [h.validate] at hv
    cases hv
  | ok =>
  refine ⟨now, ?_⟩
  apply Prog.wp_run_bind_of
  cases hs : decodeEndpoint source with
  | error e =>
    refine ⟨now, fails e fun h => ?_⟩
    obtain ⟨e', -, he, -⟩ := h.reads
    rw [hs] at he
    cases he
  | ok src =>
  refine ⟨now, ?_⟩
  apply Prog.wp_run_bind_of
  cases hd : decodeEndpoint destination with
  | error e =>
    refine ⟨now, fails e fun h => ?_⟩
    obtain ⟨e', he, -⟩ := h.writes
    rw [hd] at he
    cases he
  | ok dst =>
  refine ⟨now, ?_⟩
  refine Prog.wp_guard now (fun hn => fails _ fun h => h.distinct _ _ hs hd hn) fun hne => ?_
  have copies : ∀ {s'}, Frame Named s s' ∨ s.lookup dst.root .sealed = none ∧
      Frame (NamedBut dst.root .data) s s' → Copies destination s s' :=
    fun h => h.imp_right fun h => ⟨dst, hd, h⟩
  refine wp_withTransferLock now (fun s' b => locks s' _ b) ?_ ?_ fun hsd hsl => ?_
  · refine fun e _ hr => error e s (.inl (.refl s)) fun h => ?_
    obtain ⟨e', b, he, hb, -⟩ := h.2.2.reads
    rw [hs] at he
    cases he
    rcases hr with hr | hr
    · exact hr h.1
    · rw [hb.dir] at hr
      cases hr
  · refine fun m s' hf hr => error _ s' (.inl hf) fun h => ?_
    obtain ⟨e', b, he, -, hl⟩ := h.2.2.reads
    rw [hs] at he
    cases he
    rcases hr with hr | hr
    · exact hr h.1
    · rw [hl] at hr
      cases hr
  have locked : ∀ d, d ≠ src.root → (s.setLock src.root .transferLock true).locked d .transferLock =
      s.locked d .transferLock := fun d hn => if_neg fun h => hn h.1
  refine wp_withTransferLock (locks _ _ _ now) (fun s' b => locks s' _ b) ?_ ?_ fun hdd hdl => ?_
  · refine fun e _ hr => error e _ (.inl (frame_lock.trans frame_lock)) fun h => ?_
    obtain ⟨e', he, hd', -⟩ := h.2.2.writes
    rw [hd] at he
    cases he
    rcases hr with hr | hr
    · exact hr h.1
    · exact absurd (hd'.symm.trans hr) (by simp)
  · refine fun m s' hf hr => error _ _ (.inl ((frame_lock.trans hf).trans frame_lock)) fun h => ?_
    obtain ⟨e', he, -, -, hl⟩ := h.2.2.writes
    rw [hd] at he
    cases he
    rcases hr with hr | hr
    · exact hr h.1
    · rw [locked _ (Ne.symm hne), hl] at hr
      cases hr
  have wraps : ∀ {K : Dir → FileName κ → Prop} {s'},
      Frame K ((s.setLock src.root .transferLock true).setLock dst.root .transferLock true) s' →
      Frame K s s' := fun hf => (frame_lock.trans frame_lock).trans hf
  refine wp_copyLocked (fun s' h => cut s' (copies (h.imp wraps fun h => ⟨h.1, wraps h.2⟩))) ?_ ?_
  · intro b s' hl hf hb hx hk
    refine ok src dst b _ hs hd hl (((wraps hf).trans frame_lock).trans frame_lock) hb hx ?_
    have inner := setLock_restore (s := s.setLock src.root .transferLock true) hdl hk
    exact setLock_restore hsl inner
  · intro e s' h hr
    refine error e _ (copies (h.imp wraps fun h => ⟨h.1, wraps h.2⟩)).lock.lock fun hc => hr ?_
    obtain ⟨hsm, hex, hcp⟩ := hc
    obtain ⟨e', b, he, hb, -⟩ := hcp.reads
    rw [hs] at he
    cases he
    obtain ⟨e', he, hd', hl, -⟩ := hcp.writes
    rw [hd] at he
    cases he
    exact ⟨hsm, hex, ⟨b, hb⟩, hd', hl⟩

end HsmRs
