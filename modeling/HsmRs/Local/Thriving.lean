import HsmRs.Lib.Success
import HsmRs.Local.Moving
import HsmRs.Local.Opening

/-! # Helpers when no operation fails

The helpers of `util.rs` on a machine that fails no operation: each one succeeds when
the disk shows what it needs.
-/

namespace HsmRs

variable {κ α : Type} [DecidableEq κ] {s : Disk (FileName κ) (Content κ)} {d : Dir} {n : FileName κ}
  {v : Content κ} {π : Policy (FileName κ) (Content κ)}

omit [DecidableEq κ] in
theorem frame_issue {K : Dir → FileName κ → Prop} {u : String} : Frame K s (s.issue u) :=
  ⟨fun _ _ _ => .refl _, fun _ _ _ => .inl rfl, fun _ _ _ h => h, fun _ _ _ _ h => h,
    fun _ hu => by simp [Disk.issue, hu]⟩

omit [DecidableEq κ] in
theorem Frame.still {s' : Disk (FileName κ) (Content κ)}
    {K : Dir → FileName κ → Prop} {c : Content κ}
    (hf : Frame K s s') (hk : K d n) (h : ∃ x, s.lookup d n = some ⟨c, x⟩) :
    ∃ x, s'.lookup d n = some ⟨c, x⟩ := by
  obtain ⟨x, hx⟩ := h
  have := hf.now d n hk
  rw [hx] at this
  obtain ⟨⟨c', y⟩, hy, rfl, -⟩ := this.some_left
  exact ⟨y, hy⟩

omit [DecidableEq κ] in
theorem Frame.absent {s' : Disk (FileName κ) (Content κ)} {K : Dir → FileName κ → Prop}
    (hf : Frame K s s') (hk : K d n) (h : s.lookup d n = none) : s'.lookup d n = none := by
  have := hf.now d n hk
  rw [h] at this
  exact Upgrade.none_left.mp this

/-- What a program spares is as it was. -/
theorem Succeeds.framed {p : Io κ α} {Q : α → Disk (FileName κ) (Content κ) → Prop}
    {K : Dir → FileName κ → Prop} (h : Succeeds (fsMachine π) p s Q)
    (spares : p.run.Within (FsOp.Spares K)) :
    Succeeds (fsMachine π) p s fun a s' => Q a s' ∧ Frame K s s' := by
  refine Prog.wp_runs (Prog.wp_mono h (fun _ h => h) ?_)
  rintro _ s' - ⟨a, rfl, hq⟩ hr
  exact ⟨a, rfl, hq, hr.frame spares⟩

theorem Succeeds.tree {p : Io κ α} {Q : α → Disk (FileName κ) (Content κ) → Prop}
    (h : Succeeds (fsMachine π) p s Q) (tree : s.Tree) :
    Succeeds (fsMachine π) p s fun a s' => Q a s' ∧ s'.Tree := by
  refine Prog.wp_runs (Prog.wp_mono h (fun _ h => h) ?_)
  rintro _ s' - ⟨a, rfl, hq⟩ hr
  exact ⟨a, rfl, hq, hr.tree tree⟩

section

variable (smooth : π.Smooth)
include smooth

omit smooth in
theorem uuid_succeeds : Succeeds (fsMachine π) (uuid : Io κ String) s fun u s' =>
    π.uuid s u ∧ s' = s.issue u := by
  refine wp_ask trivial (fun _ _ => trivial) fun u s' h => ?_
  obtain ⟨hu, rfl⟩ := h.uuid
  exact ⟨u, rfl, hu, rfl⟩

omit smooth in
theorem existsDir_succeeds : Succeeds (fsMachine π) (existsDir d : Io κ Bool) s fun b s' =>
    b = s.dir d ∧ s' = s := by
  refine wp_ask trivial (fun _ _ => trivial) fun b s' h => ?_
  obtain ⟨rfl, rfl⟩ := h.existsDir rfl
  exact ⟨_, rfl, rfl, rfl⟩

theorem newLayout_succeeds (hd : s.dir d = true) :
    Succeeds (fsMachine π) (newLayout d : Io κ String) s fun u s' =>
      π.uuid s u ∧ Made (u :: d) s s' ∧ Frame Named s s' ∧ s'.locked = s.locked := by
  refine wp_newLayout (fun _ _ => trivial) (fun u s' hu _ hm hf hk => ⟨u, rfl, hu, hm, hf, hk⟩)
    fun e s' _ _ hr => ?_
  rcases hr with hr | hr
  · exact (hr smooth).elim
  · rw [hd] at hr
    cases hr

theorem createNew_succeeds (hd : s.dir d = true) (hn : s.lookup d n = none) :
    Succeeds (fsMachine π) (createNew d n v) s fun _ s' => s' = s.put d n (some ⟨v, false⟩) := by
  refine wp_io trivial (fun _ _ => trivial) ?_
  rintro (e | ⟨⟩) s' h
  · rcases h.create_error with hr | hr | hr
    · exact (π.not_smooth hr smooth).elim
    · rw [hd] at hr
      cases hr
    · exact (hr hn).elim
  · obtain ⟨-, -, rfl⟩ := h.create_ok
    exact ⟨(), rfl, rfl⟩

theorem readFile_succeeds {f : File (Content κ)} (hl : s.lookup d n = some f) :
    Succeeds (fsMachine π) (readFile d n) s fun c s' => c = f.content ∧ s' = s := by
  refine wp_readFile trivial (fun f' hf => ?_) fun e _ hr => ?_
  · rw [hl] at hf
    cases hf
    exact ⟨f.content, rfl, rfl, rfl⟩
  · rcases hr with hr | hr
    · exact (hr smooth).elim
    · rw [hl] at hr
      cases hr

theorem syncFile_succeeds {f : File (Content κ)} (hl : s.lookup d n = some f) :
    Succeeds (fsMachine π) (syncFile d n) s fun _ s' =>
      s' = s.put d n (some { f with synced := true }) := by
  refine wp_syncFile (fun _ _ => trivial) (fun f' hf => ?_) fun e s' _ _ hr => ?_
  · rw [hl] at hf
    cases hf
    exact ⟨(), rfl, rfl⟩
  · rcases hr with hr | hr
    · exact (hr smooth).elim
    · rw [hl] at hr
      cases hr

theorem syncDir_succeeds (hd : s.dir d = true) :
    Succeeds (fsMachine π) (syncDir d : Io κ Unit) s fun _ s' => s' = s.flush d := by
  refine wp_syncDir (fun _ _ => trivial) (fun _ => ⟨(), rfl, rfl⟩) fun e s' _ _ hr => ?_
  rcases hr with hr | hr
  · exact (hr smooth).elim
  · rw [hd] at hr
    cases hr

theorem digestFile_succeeds [Crates] {b : Bytes} (hb : s.Holds d b) :
    Succeeds (fsMachine π) (digestFile d : Io κ _) s fun r s' =>
      r = (b.length, digestOf b) ∧ s' = s := by
  refine wp_digestFile trivial (fun b' hb' => ?_) fun e _ hr => ?_
  · obtain rfl := hb.unique hb'
    exact ⟨_, rfl, rfl, rfl⟩
  · rcases hr with hr | hr
    · exact (hr smooth).elim
    · exact (hr b hb).elim

theorem writeJson_succeeds (hn : ¬ n.IsTemp) (hd : s.dir d = true) :
    Succeeds (fsMachine π) (writeJson d n v) s fun _ s' =>
      Placed d n v s s' ∧ s'.Safe d n v ∧ s'.locked = s.locked := by
  refine wp_writeJson hn (fun _ _ => trivial) (fun s' hp hs hk => ⟨(), rfl, hp, hs, hk⟩)
    fun e s' _ _ hr => ?_
  rcases hr with hr | hr
  · exact (hr smooth).elim
  · rw [hd] at hr
    cases hr

theorem createDirAll_succeeds (tree : s.Tree) (top : s.dir [] = true) :
    Succeeds (fsMachine π) (createDirAll d : Io κ Unit) s fun _ s' =>
      Frame Named s s' ∧ s'.dir d = true ∧ s'.locked = s.locked := by
  refine wp_createDirAll tree (fun _ _ => trivial) (fun s' hf _ hd hk => ⟨(), rfl, hf, hd top, hk⟩)
    fun e s' _ _ hn => (hn ⟨smooth, top⟩).elim

theorem lockRoot_succeeds (tree : s.Tree) (top : s.dir [] = true)
    (free : s.locked d .ownerLock = false) :
    Succeeds (fsMachine π) (lockRoot d : Io κ Unit) s fun _ s' =>
      Frame Named s s' ∧ s'.Tree ∧ s'.dir d = true ∧
        s'.locked = (s.setLock d .ownerLock true).locked := by
  refine wp_lockRoot tree (fun _ _ => trivial) (fun s' hf ht hd _ hk => ⟨(), rfl, hf, ht, hd, hk⟩)
    fun e s' _ hn => (hn ⟨smooth, top, free⟩).elim

theorem removeDirAll_succeeds (hd : s.dir d = true) :
    Succeeds (fsMachine π) (removeDirAll d : Io κ Unit) s fun _ s' => s' = s.prune d := by
  refine wp_io trivial (fun _ _ => trivial) ?_
  rintro (e | ⟨⟩) s' h
  · rcases h.responds_or_fails (by simp) (.inl rfl) with ⟨u, -, hr, -⟩ | ⟨hf, -⟩
    · simp [Disk.respond, hd] at hr
    · exact (π.not_smooth hf smooth).elim
  · obtain ⟨-, rfl⟩ := h.removeDirAll_ok
    exact ⟨(), rfl, rfl⟩

theorem withTransferLock_succeeds {p : Io κ α} {Q : α → Disk (FileName κ) (Content κ) → Prop}
    (hd : s.dir d = true) (hl : s.locked d .transferLock = false)
    (body : Succeeds (fsMachine π) p (s.setLock d .transferLock true) fun a s' =>
      Q a (s'.setLock d .transferLock false)) :
    Succeeds (fsMachine π) (withTransferLock d p) s Q := by
  refine wp_withTransferLock trivial (fun _ _ _ => trivial) (fun e _ hr => ?_) (fun m s' _ hr => ?_)
    fun _ _ => body
  · rcases hr with hr | hr
    · exact (hr smooth).elim
    · rw [hd] at hr
      cases hr
  · rcases hr with hr | hr
    · exact (hr smooth).elim
    · rw [hl] at hr
      cases hr

theorem copy_endures [Crates] {C : Disk (FileName κ) (Content κ) → Prop} (exact' : π.exact = true)
    {ctx : OperationContext} {src dst : Dir}
    {b : Bytes} (cut : ∀ s', Frame (NamedBut dst .data) s s' → C s')
    (validate : ctx.validate = .ok ()) (distinct : src ≠ dst) (hb : s.Holds src b)
    (hd : s.dir dst = true) (hn : s.lookup dst .sealed = none)
    (idle : ∀ d, s.locked d .transferLock = false) :
    Endures (fsMachine π) C (LocalDataMover.copy ctx (endpoint src) (endpoint dst) : Io κ _) s
      fun r s' => r = ⟨b.length, digestOf b⟩ ∧ s'.Holds dst b ∧ Frame (NamedBut dst .data) s s' ∧
        s'.locked = s.locked := by
  refine Endures.mono (C := Frame (NamedBut dst .data) s) ?_ cut fun _ _ h => h
  refine wp_copy (fun _ _ _ hf => hf.trans frame_lock) ?_ ?_ fun e s' _ hr => ?_
  · rintro s' (hf | ⟨e, he, -, hf⟩)
    · exact hf.mono fun _ _ h => h.named
    · rw [decodeEndpoint_endpoint] at he
      cases he
      exact hf
  · intro e e' b' s' he he' _ hf hb' hx hk
    rw [decodeEndpoint_endpoint] at he he'
    cases he
    cases he'
    obtain rfl := hb.unique (hx exact')
    exact ⟨_, rfl, rfl, hb', hf, hk⟩
  · refine (hr ⟨smooth, exact', validate, ⟨_, b, decodeEndpoint_endpoint _, hb, idle _⟩,
      ⟨_, decodeEndpoint_endpoint _, hd, hn, idle _⟩, ?_⟩).elim
    intro e e' he he'
    rw [decodeEndpoint_endpoint] at he he'
    cases he
    cases he'
    exact distinct

theorem copy_fenced [Crates] {C : Disk (FileName κ) (Content κ) → Prop} {ctx : OperationContext}
    {src dst : Dir} (cut : ∀ s', Frame Named s s' → C s') (validate : ctx.validate = .ok ())
    (distinct : src ≠ dst) (hs : s.dir src = true) (hd : s.dir dst = true)
    (mark : s.lookup dst .sealed ≠ none) (idle : ∀ d, s.locked d .transferLock = false) :
    (LocalDataMover.copy ctx (endpoint src) (endpoint dst) : Io κ _).run.wp (fsMachine π) C
      (fun r s' => r = .error .fenced ∧ Frame Named s s') s := by
  obtain ⟨f, hf⟩ := Option.ne_none_iff_exists'.mp mark
  refine Prog.wp_mono (C := Frame Named s) ?_ cut fun _ _ _ h => h
  have now : Frame Named s s := .refl s
  refine Prog.wp_check now (fun e he => ?_) fun _ _ => ?_
  · rw [validate] at he
    cases he
  refine Prog.wp_check now (fun e he => ?_) fun x hx => ?_
  · rw [decodeEndpoint_endpoint] at he
    cases he
  refine Prog.wp_check now (fun e he => ?_) fun y hy => ?_
  · rw [decodeEndpoint_endpoint] at he
    cases he
  rw [decodeEndpoint_endpoint] at hx hy
  cases hx
  cases hy
  refine Prog.wp_guard now (fun hn => (distinct hn).elim) fun _ => ?_
  refine wp_withTransferLock now (fun _ _ h => h.trans frame_lock) (fun e _ hr => ?_)
    (fun m s' _ hr => ?_) fun _ _ => ?_
  · rcases hr with hr | hr
    · exact (hr smooth).elim
    · cases hs.symm.trans hr
  · rcases hr with hr | hr
    · exact (hr smooth).elim
    · cases (idle _).symm.trans hr
  refine wp_withTransferLock frame_lock (fun _ _ h => h.trans frame_lock) (fun e _ hr => ?_)
    (fun m s' _ hr => ?_) fun _ _ => ?_
  · rcases hr with hr | hr
    · exact (hr smooth).elim
    · cases hd.symm.trans hr
  · rcases hr with hr | hr
    · exact (hr smooth).elim
    · refine absurd hr ?_
      simp [Disk.setLock, idle, Ne.symm distinct]
  apply Prog.wp_run_bind_of
  refine wp_existsFile (frame_lock.trans frame_lock) rfl ?_
  refine Prog.wp_guard (frame_lock.trans frame_lock) (fun _ => ?_) fun hn => ?_
  · exact ⟨rfl, ((frame_lock.trans frame_lock).trans frame_lock).trans frame_lock⟩
  · refine absurd ?_ hn
    exact Option.isSome_iff_exists.mpr ⟨f, hf⟩

end

end HsmRs
