import HsmRs.System.World

/-! # What the adapters see of each other

A call of the storage leaves the archive alone, a call of the archive leaves the
storage alone, and a copy writes a payload that is not sealed. So every step of the
system is a step of the archive or one beside it.
-/

namespace HsmRs

variable {κ : Type} {s s' : Disk (FileName κ) (Content κ)} {roots : Roots}

def Roots.swap (roots : Roots) : Roots := ⟨roots.archive, roots.storage, roots.apart', roots.apart⟩

section

variable [Crates] {destination : DataEndpoint} {root : Dir}

theorem Copies.beside (h : Copies destination s s') (ht : s.Tree → s'.Tree) : Beside root s s' := by
  rcases h with hf | ⟨e, -, hs, hf⟩
  · exact ⟨hf.mono fun _ _ h => h.1, fun _ _ hg => hg.frame (n := .sealed) hf id, ht⟩
  · refine ⟨hf.mono fun d n h => ⟨h.1, fun he => ?_⟩, fun p _ hg => ?_, ht⟩
    · obtain ⟨rfl, rfl⟩ := he
      exact h.2.2 rfl hs
    · exact hg.frame (n := .sealed) hf ⟨id, by simp⟩

variable [KeyHash κ] {a : LocalArchive} {c : BackendCall}

theorem LocalArchive.Moves.off (h : a.Moves s s' c) (stored : Stored a.root s) :
    Frame (Off a.root) s s' := by
  have commits : ∀ {ctx target view}, a.Commits ctx target view s s' → Frame (Off a.root) s s' := by
    rintro ctx target view (hf | ⟨⟨p, x, hl, -, ht, -⟩, -, payload, ⟨e, he, hr⟩, hc⟩)
    · exact hf.mono off_named
    obtain ⟨-, p', u, hp', hd, -⟩ := stored.attempt _ _ (.inl hl)
    cases hp'
    rw [ht] at hd
    rw [hd, decodeEndpoint_endpoint] at he
    cases he
    subst hr
    have other : ∀ d (n : FileName κ), Off a.root d n →
        NamedBut (u :: attemptsDir a.root) .sealed d n := fun d n h =>
      ⟨h.1, fun h' => h.2 (h'.1 ▸ suffix_private)⟩
    rcases hc with hf | hs | hp
    · exact hf.mono off_named
    · exact hs.others.mono other
    · refine hp.others.mono fun d n h => ⟨other d n h, h.1, fun h' => h.2 (h'.1 ▸ ?_)⟩
      exact List.suffix_cons _ _
  cases h with
  | still hf => exact hf.mono off_named
  | prepared ha =>
    exact ha.placed.others.mono fun d n h =>
      ⟨h.1, fun h' => h.2 (h'.1 ▸ List.suffix_cons _ _)⟩
  | resumed hc => exact commits hc
  | committed hc => exact commits hc
where
  off_named (d : Dir) (n : FileName κ) (h : Off a.root d n) : Named d n := h.1

end

theorem LocalArchive.Opening.off {root : Dir} {id : String}
    (h : LocalArchive.Opening root id s s') :
    Frame (Off root) s s' :=
  h.others.mono fun _ _ h => ⟨h.1, fun h' => h.2 (h'.1 ▸ List.suffix_refl _)⟩

variable [DecidableEq κ] [KeyHash κ] [Crates] {π : Policy (FileName κ) (Content κ)}
  {env : Setting κ} {self : LocalStorage κ} {archive : LocalArchive} {t : Stores κ}

/-! ## Calls of the engine -/

/-- The request to the storage that a call makes, if it can change anything. -/
def StorageCall.request : StorageCall → Option Request
  | .completed _ _ _ | .inspect _ => none
  | .prepareArchive ctx data => some (.step ctx (.prepareArchive data))
  | .commitArchive ctx view receipt => some (.step ctx (.commitArchive view receipt))
  | .release ctx expected => some (.step ctx (.release expected))
  | .prepareRecall ctx expected anchor => some (.step ctx (.prepareRecall expected anchor))
  | .commitRecall ctx target evidence => some (.step ctx (.commitRecall target evidence))

omit [DecidableEq κ] [KeyHash κ] [Crates] in
theorem runs_replying [DecidableEq κ] {α : Type} {f : α → Reply}
    {p : Prog (LocalSig κ) (HsmResult α × LocalStorage κ)} {x : HsmResult α × LocalStorage κ}
    (h : Runs (fsMachine π) p s x s') :
    Runs (fsMachine π) (LocalStorage.replying f p) s (x.1.map f, x.2) s' :=
  Runs.bind_iff.mpr ⟨x, s', h, .ret _ _⟩

theorem storageCall_runs {c : StorageCall} {x : c.Ans}
    (h : Runs (fsMachine π) ((⟨self, archive⟩ : Stores κ).storageCall c) s (x, t) s') :
    t.archive = archive ∧ (c.request = none ∧ t.storage = self ∧ s' = s ∨
      ∃ request answer, c.request = some request ∧
        Runs (fsMachine π) (self.perform request) s (answer, t.storage) s') := by
  have onStorage : ∀ {α : Type} {p : Prog (LocalSig κ) (HsmResult α × LocalStorage κ)}
      {f : α → Reply} {x : HsmResult α} (request : Request),
      Runs (fsMachine π) ((⟨self, archive⟩ : Stores κ).onStorage p) s (x, t) s' →
      self.perform request = LocalStorage.replying f p →
      t.archive = archive ∧ ∃ answer,
        Runs (fsMachine π) (self.perform request) s (answer, t.storage) s' := by
    intro α p f x request h hp
    obtain ⟨⟨y, st⟩, hr, he⟩ := Runs.of_map (f := fun x : HsmResult α × LocalStorage κ =>
      ((x.1, { storage := x.2, archive }) : HsmResult α × Stores κ)) h
    cases he
    exact ⟨rfl, _, hp ▸ runs_replying hr⟩
  cases c with
  | completed => cases h; exact ⟨rfl, .inl ⟨rfl, rfl, rfl⟩⟩
  | inspect => cases h; exact ⟨rfl, .inl ⟨rfl, rfl, rfl⟩⟩
  | prepareArchive ctx data =>
    obtain ⟨ha, answer, hr⟩ := onStorage (.step ctx (.prepareArchive data)) h rfl
    exact ⟨ha, .inr ⟨_, answer, rfl, hr⟩⟩
  | commitArchive ctx view receipt =>
    obtain ⟨ha, answer, hr⟩ := onStorage (.step ctx (.commitArchive view receipt)) h rfl
    exact ⟨ha, .inr ⟨_, answer, rfl, hr⟩⟩
  | release ctx expected =>
    obtain ⟨ha, answer, hr⟩ := onStorage (.step ctx (.release expected)) h rfl
    exact ⟨ha, .inr ⟨_, answer, rfl, hr⟩⟩
  | prepareRecall ctx expected anchor =>
    obtain ⟨ha, answer, hr⟩ := onStorage (.step ctx (.prepareRecall expected anchor)) h rfl
    exact ⟨ha, .inr ⟨_, answer, rfl, hr⟩⟩
  | commitRecall ctx target evidence =>
    obtain ⟨ha, answer, hr⟩ := onStorage (.step ctx (.commitRecall target evidence)) h rfl
    exact ⟨ha, .inr ⟨_, answer, rfl, hr⟩⟩

theorem storageCall_cuts {c : StorageCall}
    (h : Cuts (fsMachine π) ((⟨self, archive⟩ : Stores κ).storageCall c) s s') :
    c.request = none ∧ s' = s ∨
      ∃ request, c.request = some request ∧ Cuts (fsMachine π) (self.perform request) s s' := by
  have onStorage : ∀ {α : Type} {p : Prog (LocalSig κ) (HsmResult α × LocalStorage κ)}
      {f : α → Reply} (request : Request),
      Cuts (fsMachine π) ((⟨self, archive⟩ : Stores κ).onStorage p) s s' →
      self.perform request = LocalStorage.replying f p →
      Cuts (fsMachine π) (self.perform request) s s' := by
    intro α p f request h hp
    have hc := Cuts.of_map (f := fun x : HsmResult α × LocalStorage κ =>
      ((x.1, { storage := x.2, archive }) : HsmResult α × Stores κ)) h
    exact hp ▸ hc.map
  cases c with
  | completed => cases h; exact .inl ⟨rfl, rfl⟩
  | inspect => cases h; exact .inl ⟨rfl, rfl⟩
  | prepareArchive ctx data =>
    exact .inr ⟨_, rfl, onStorage (.step ctx (.prepareArchive data)) h rfl⟩
  | commitArchive ctx view receipt =>
    exact .inr ⟨_, rfl, onStorage (.step ctx (.commitArchive view receipt)) h rfl⟩
  | release ctx expected =>
    exact .inr ⟨_, rfl, onStorage (.step ctx (.release expected)) h rfl⟩
  | prepareRecall ctx expected anchor =>
    exact .inr ⟨_, rfl, onStorage (.step ctx (.prepareRecall expected anchor)) h rfl⟩
  | commitRecall ctx target evidence =>
    exact .inr ⟨_, rfl, onStorage (.step ctx (.commitRecall target evidence)) h rfl⟩

theorem backend_runs {c : BackendCall} {x : c.Ans}
    (h : Runs (fsMachine π) (Stores.answer (.backend c) (⟨self, archive⟩ : Stores κ)) s (x, t) s') :
    t = ⟨self, archive⟩ ∧ Runs (fsMachine π) (Stores.backendCall archive c) s x s' := by
  obtain ⟨y, hr, he⟩ := Runs.of_map (f := fun y : c.Ans => (y, (⟨self, archive⟩ : Stores κ))) h
  cases he
  exact ⟨rfl, hr⟩

theorem backend_cuts {c : BackendCall}
    (h : Cuts (fsMachine π) (Stores.answer (.backend c) (⟨self, archive⟩ : Stores κ)) s s') :
    Cuts (fsMachine π) (Stores.backendCall archive c) s s' :=
  Cuts.of_map (f := fun y : c.Ans => (y, (⟨self, archive⟩ : Stores κ))) h

omit [KeyHash κ] in
theorem copy_copies {ctx : OperationContext} {source destination : DataEndpoint} :
    (LocalDataMover.copy ctx source destination : Io κ _).run.wp (fsMachine π)
      (Copies destination s) (fun _ s' => Copies destination s s') s :=
  wp_copy (fun _ _ _ h => h.lock) (fun _ h => h)
    (fun _ e' _ _ _ he hs hf _ _ _ => .inr ⟨e', he, hs, hf⟩) fun _ _ h _ => h

theorem copy_runs {ctx : OperationContext} {source destination : DataEndpoint}
    {x : HsmResult TransferEvidence}
    (h : Runs (fsMachine π)
      (Stores.answer (.copy ctx source destination) (⟨self, archive⟩ : Stores κ))
      s (x, t) s') : t = ⟨self, archive⟩ ∧ Copies destination s s' ∧
      Runs (fsMachine π) (LocalDataMover.copy ctx source destination).run s x s' := by
  obtain ⟨y, hr, he⟩ := Runs.of_map (f := fun y => (y, (⟨self, archive⟩ : Stores κ))) h
  cases he
  have copies := Prog.wp_sound_runs (@copy_copies κ s _ _ π ctx source _) hr
  exact ⟨rfl, copies, hr⟩

theorem copy_cuts {ctx : OperationContext} {source destination : DataEndpoint}
    (h : Cuts (fsMachine π)
      (Stores.answer (.copy ctx source destination) (⟨self, archive⟩ : Stores κ))
      s s') : Copies destination s s' :=
  Prog.wp_sound_cuts copy_copies (Cuts.of_map (f := fun y => (y, (⟨self, archive⟩ : Stores κ))) h)

/-! ## The system seen from its archive -/

/-- What runs beside the archive is one step of the vault, and a crash another. -/
theorem Vault.steps_beside {handle : Option LocalArchive} {begun : List BackendCall} {root : Dir}
    (between : ∀ {s s'}, Beside root s s' → env.between s s') (hb : Beside root s s') :
    Vault.Steps π env root ⟨s, handle, begun⟩ ⟨s', handle, begun⟩ ∧
      ∀ s'', env.crash s' s'' → Vault.Steps π env root ⟨s, handle, begun⟩ ⟨s'', none, begun⟩ :=
  ⟨.single (.between (between hb)), fun _ hx => .tail (.single (.between (between hb))) (.died hx)⟩

theorem Live.Acts.vault {l : Live κ} {begins : List (String × Bytes)}
    {p : Prog (LocalSig κ) (Live κ × List (String × Bytes))} (begun : List BackendCall)
    (between : ∀ {s s'}, Beside roots.archive s s' → env.between s s')
    (hroot : ∀ self, l.storage = some self → self.root = roots.storage)
    (ha : Live.Acts roots (env.opens s) l begins p) :
    (∀ l' done s', Runs (fsMachine π) p s (l', done) s' → ∃ begun',
      Vault.Steps π env roots.archive ⟨s, l.archive, begun⟩ ⟨s', l'.archive, begun'⟩) ∧
    ∀ s' s'', Cuts (fsMachine π) p s s' → env.crash s' s'' → ∃ begun',
      Vault.Steps π env roots.archive ⟨s, l.archive, begun⟩ ⟨s'', none, begun'⟩ := by
  have aside : ∀ {α : Type} {q : Prog (LocalSig κ) α}, q.Within (FsOp.Spares (Off roots.storage)) →
      (∀ a s', Runs (fsMachine π) q s a s' → Beside roots.archive s s') ∧
      ∀ s', Cuts (fsMachine π) q s s' → Beside roots.archive s s' := fun hq =>
    ⟨fun _ _ hr => .of_off (hr.frame hq) hr.tree, fun _ hc => .of_off (hc.frame hq) hc.tree⟩
  have run : ∀ {s' : Disk (FileName κ) (Content κ)}, Beside roots.archive s s' → ∃ begun',
      Vault.Steps π env roots.archive ⟨s, l.archive, begun⟩ ⟨s', l.archive, begun'⟩ :=
    fun hb => ⟨begun, (Vault.steps_beside between hb).1⟩
  have cut : ∀ {s' s'' : Disk (FileName κ) (Content κ)}, Beside roots.archive s s' →
      env.crash s' s'' → ∃ begun',
      Vault.Steps π env roots.archive ⟨s, l.archive, begun⟩ ⟨s'', none, begun'⟩ :=
    fun hb hx => ⟨begun, (Vault.steps_beside between hb).2 _ hx⟩
  cases ha with
  | @imports _ self id bytes hs =>
    have within : (self.import id bytes).Within (FsOp.Spares (Off roots.storage)) :=
      hroot self hs ▸ LocalStorage.spares_import LocalStorage.distant_off
    have spares := aside within
    refine ⟨fun l' done s' hr => ?_, fun s' s'' hc hx => cut (spares.2 _ hc.of_map) hx⟩
    obtain ⟨x, hx, he⟩ := hr.of_map
    cases he
    exact run (spares.1 _ _ hx)
  | @collects _ self hs =>
    have within : self.collectGarbage.Within (FsOp.Spares (Off roots.storage)) :=
      hroot self hs ▸ LocalStorage.spares_collectGarbage LocalStorage.distant_off
    have spares := aside within
    refine ⟨fun l' done s' hr => ?_, fun s' s'' hc hx => cut (spares.2 _ hc.of_map) hx⟩
    obtain ⟨x, hx, he⟩ := hr.of_map
    cases he
    exact run (spares.1 _ _ hx)
  | begins =>
    refine ⟨fun l' done s' hr => ?_, fun s' s'' hc hx => ?_⟩
    · cases hr
      exact ⟨begun, .refl⟩
    · cases hc
      exact ⟨begun, .single (.died hx)⟩
  | @calls self archive c k before after =>
    have within : ∀ c, ((⟨self, archive⟩ : Stores κ).storageCall c).Within
        (FsOp.Spares (Off roots.storage)) := fun c =>
      hroot self rfl ▸ LocalStorage.distant_off.storageCall
    refine ⟨fun l' done s' hr => ?_, fun s' s'' hc hx => ?_⟩
    · obtain ⟨⟨x, t⟩, ha, he⟩ := hr.of_map
      cases he
      cases c with
      | storage c =>
        have hb := (aside (within c)).1 _ _ ha
        obtain ⟨rfl, -⟩ := storageCall_runs ha
        exact run hb
      | backend c =>
        obtain ⟨rfl, hb⟩ := backend_runs ha
        exact ⟨_, .single (.call hb)⟩
      | copy ctx source destination =>
        obtain ⟨rfl, hcopy, hb⟩ := copy_runs ha
        exact run (hcopy.beside hb.tree)
    · have hc := hc.of_map
      cases c with
      | storage c =>
        exact cut ((aside (within c)).2 _ hc) hx
      | backend c => exact ⟨_, .single (.crash (backend_cuts hc) hx)⟩
      | copy ctx source destination => exact cut ((copy_cuts hc).beside hc.tree) hx
  | opensStorage =>
    have within : (LocalStorage.open roots.storage : Io κ _).run.Within
        (FsOp.Spares (Off roots.storage)) :=
      LocalStorage.spares_open LocalStorage.off_named LocalStorage.off_root
    have spares := aside within
    refine ⟨fun l' done s' hr => ?_, fun s' s'' hc hx => cut (spares.2 _ hc.of_map) hx⟩
    obtain ⟨x, hx, he⟩ := hr.of_map
    cases he
    exact run (spares.1 _ _ hx)
  | opensArchive id ho hn =>
    refine ⟨fun l' done s' hr => ?_, fun s' s'' hc hx => ?_⟩
    · obtain ⟨x, hx, he⟩ := hr.of_map
      cases he
      rw [hn]
      rcases x with e | a
      · exact ⟨begun, .single (.refused ho hx)⟩
      · exact ⟨begun, .single (.opened ho hx)⟩
    · rw [hn]
      exact ⟨begun, .single (.cut ho hc.of_map hx)⟩

end HsmRs
