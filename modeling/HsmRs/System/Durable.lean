import HsmRs.System.Preserved

/-! # Receipts are durable

Once an archive has reported a receipt, its object is found again after every loss of
power, and so is that of every anchor in the metadata of a storage, with the content that
was imported. This takes that every opening finds the directories of its path durable:
`lock_root` syncs the parents of those that it creates, and after a crash before the sync
it finds them there. The layouts of a storage survive with the directories above them.
-/

namespace HsmRs

section

variable {κ : Type} [DecidableEq κ] [KeyHash κ] [Crates] {π : Policy (FileName κ) (Content κ)}
  {s s' : Disk (FileName κ) (Content κ)} {root : Dir} {receipt : ArchiveReceipt}

def Archived (root : Dir) (receipt : ArchiveReceipt) (s : Disk (FileName κ) (Content κ)) : Prop :=
  receipt.key.object ≠ "" ∧ Rooted root receipt.key.backend s ∧ ∃ u b, Enduring root receipt u b s

omit [DecidableEq κ] in
theorem Archived.carry (h : Archived root receipt s) (hc : Carries root s s') :
    Archived root receipt s' := by
  obtain ⟨ho, hr, u, b, he⟩ := h
  exact ⟨ho, (hc _ hr).1, u, b, (hc _ hr).2 _ _ _ he⟩

/-- Every opening of the archive finds the directories of its path durable. -/
structure Setting.Founding (env : Setting κ) (root : Dir) : Prop extends env.Gentle root where
  anchored : ∀ s, env.opens s → Anchored root s

omit [DecidableEq κ] [KeyHash κ] [Crates] in
theorem Setting.powered_founding : (Setting.powered root : Setting κ).Founding root :=
  ⟨Setting.powered_gentle, fun _ h => h⟩

namespace Vault

variable {env : Setting κ}

/-- The vaults of runs in which every opening finds a safe path. -/
structure Kept (root : Dir) (v : Vault κ) : Prop where
  solid : v.Solid root
  founded : v.Founded root

theorem Step.kept {v v' : Vault κ} (fenv : env.Founding root) (h : Step π env root v v')
    (hv : v.Kept root) : v'.Kept root ∧ Carries root v.disk v'.disk := by
  obtain ⟨solid, carries⟩ := h.solid fenv.toGentle hv.solid
  exact ⟨⟨solid, h.founded fenv.toGentle fenv.anchored hv.solid hv.founded⟩, carries⟩

theorem Steps.kept {v v' : Vault κ} (fenv : env.Founding root) (h : Steps π env root v v')
    (hv : v.Kept root) : v'.Kept root ∧ Carries root v.disk v'.disk := by
  obtain ⟨solid, carries⟩ := h.solid fenv.toGentle hv.solid
  exact ⟨⟨solid, h.founded fenv.toGentle fenv.anchored hv.solid hv.founded⟩, carries⟩

theorem Kept.reports {a : LocalArchive} {begun : List BackendCall} {c : BackendCall} {x : c.Ans}
    (fenv : env.Founding root) (hv : Kept root ⟨s, some a, begun⟩)
    (hr : Runs (fsMachine π) (Stores.backendCall a c) s x s')
    (hx : c.reports x = some receipt) : Kept root ⟨s', some a, c :: begun⟩ ∧
      receipt.key.object ≠ "" ∧ Rooted root receipt.key.backend s' ∧
      ∃ u b, Enduring root receipt u b s' := by
  obtain ⟨hv', carries⟩ := (Step.call hr : Step π env root _ _).kept fenv hv
  obtain ⟨rfl, rooted⟩ := hv.founded a rfl
  have knows := (LocalArchive.backendCall_runs hr).2 receipt hx
  obtain ⟨accepts, u, b, he⟩ := Enduring.of_knows hv'.solid.stored knows
  have hid : receipt.key.backend = a.id := accepts.1
  exact ⟨hv', accepts.2, hid ▸ (carries _ rooted).1, u, b, he⟩

end Vault

/-- What holds of every version of the metadata, power losses included: the archive keeps the
anchors. -/
structure State.Anchored (roots : Roots) (g : Imports) (s : Disk (FileName κ) (Content κ))
    (st : State κ) : Prop where
  coherent : st.Coherent roots.storage
  origin : ∀ id e, st.entities.lookup id = some e →
    ∃ bytes, (id, bytes) ∈ g.begun ∧ e.Contains bytes
  anchors : ∀ id e, st.entities.lookup id = some e → ∀ r ∈ e.public.anchors,
    Archived roots.archive r s

omit [DecidableEq κ] in
theorem State.Anchored.carry {roots : Roots} {g : Imports} {st : State κ}
    (h : st.Anchored roots g s)
    (carry : ∀ r, Archived roots.archive r s → Archived roots.archive r s') :
    st.Anchored roots g s' :=
  ⟨h.coherent, h.origin, fun id e he r hr => carry r (h.anchors id e he r hr)⟩

/-- The archive is kept through losses of power if each opening finds its path durable. -/
def Custody.founded {env : Setting κ} (fenv : env.Founding root)
    (between : ∀ s s', Beside root s s' → env.between s s') : Custody π env root where
  sound v := v.Kept root
  backed s r := Archived root r s
  gentle := fenv.toGentle
  solid h := h.solid
  between h := between _ _ h
  step hv h := by
    obtain ⟨hv', carries⟩ := h.kept fenv hv
    exact ⟨hv', fun _ hr => hr.carry carries⟩
  told hv hr hx := (hv.reports fenv hr hx).2

def anchorage (π : Policy (FileName κ) (Content κ)) (roots : Roots) :
    Upkeep π (.powered roots.archive) roots where
  toCustody := .founded Setting.powered_founding fun _ _ h => h
  valid g s st := st.Anchored roots g s
  begins h := ⟨h.coherent, fun id e he => (h.origin id e he).imp fun _ hb =>
    hb.imp_left (List.mem_append_right _), h.anchors⟩
  new := fun _ => ⟨.new, by simp [State.new], by simp [State.new]⟩
  still _ _ carry h := h.carry carry
  kept _ _ _ carry h := h.carry carry
  moved hs attached begun _ _ _ carry h := ⟨State.Coherent.closed _ _ _ _ _ h.coherent hs,
    hs.origin begun h.origin, hs.anchored (fun ctx view r hq => carry r (attached ctx view r hq))
      fun id e he r hr => carry r (h.anchors id e he r hr)⟩
  imported _ h := ⟨h.coherent, h.origin, h.anchors⟩

/-- In every run whose openings find the directories of their path durable, a receipt that the
archive has reported is found again with its payload after every loss of power, and so is every
anchor in the metadata of a storage. -/
theorem receipt_durable (π : Policy (FileName κ) (Content κ)) (roots : Roots) :
    (∀ (root : Dir) (a : LocalArchive) (s s' : Disk (FileName κ) (Content κ))
        (begun : List BackendCall) (c : BackendCall) (x : c.Ans) (receipt : ArchiveReceipt),
      Vault.From π (.powered root) root ⟨s, some a, begun⟩ →
      Runs (fsMachine π) (Stores.backendCall a c) s x s' → c.reports x = some receipt →
      ∃ payload b, s'.Holds payload b ∧ s'.lookup payload .sealed ≠ none ∧
        ∀ v, Vault.Steps π (.powered root) root ⟨s', some a, c :: begun⟩ v →
          ∀ s₁, (Setting.powered root).crash v.disk s₁ → Recovers root receipt payload b s₁) ∧
    ∀ (sys : System κ) (st : State κ),
      System.Reachable π (.powered roots.archive) roots sys →
      World.Version roots.storage ⟨sys.disk, sys.live.storage⟩ st →
      ∀ id e, st.entities.lookup id = some e → ∀ receipt ∈ e.public.anchors,
        ∃ payload b, ∀ s₁, (Setting.powered roots.archive).crash sys.disk s₁ →
          Recovers roots.archive receipt payload b s₁ := by
  constructor
  · rintro root a s s' begun c x receipt ⟨s₀, bare, steps⟩ hr hx
    obtain ⟨kept, -⟩ := steps.kept Setting.powered_founding ⟨Vault.Bare.solid bare, nofun⟩
    obtain ⟨hv, ho, hr, u, b, he⟩ := kept.reports Setting.powered_founding hr hx
    refine ⟨_, b, he.stands.1, he.stands.2, fun v hs s₁ hc => ?_⟩
    obtain ⟨hv', carries⟩ := hs.kept Setting.powered_founding hv
    obtain ⟨hr, hk⟩ := carries _ hr
    exact (hk _ _ _ he).recovers_crash Setting.powered_gentle hr hv'.solid.tree ho hc
  · intro sys st reachable version id e hl receipt hm
    have kept := reachable.kept (anchorage π roots) fun s hb => ⟨Vault.Bare.solid hb, nofun⟩
    obtain ⟨ho, hr, u, b, he⟩ := (kept.store.version version).anchors id e hl receipt hm
    obtain ⟨begun, sound⟩ := kept.vault
    exact ⟨_, b, fun s₁ hc =>
      he.recovers_crash Setting.powered_gentle hr (sound.solid.tree) ho hc⟩

/-- In such a run a receipt that has been reported is also the only one for its key: whatever
power is lost later on, the archive knows no other, does not deny the object, prepares no attempt
for the key, and opens the payload of this receipt only. -/
theorem receipt_forever_powered {a : LocalArchive} {begun : List BackendCall} {c : BackendCall}
    {x : c.Ans} (h : Vault.From π (.powered root) root ⟨s, some a, begun⟩)
    (hr : Runs (fsMachine π) (Stores.backendCall a c) s x s') (hx : c.reports x = some receipt) :
    receipt.key = c.key ∧ ∀ v a', Vault.Steps π (.powered root) root ⟨s', some a, c :: begun⟩ v →
      v.handle = some a' → a'.Insists π receipt v.disk := by
  obtain ⟨s₀, bare, steps⟩ := h
  obtain ⟨kept, -⟩ := steps.kept Setting.powered_founding ⟨Vault.Bare.solid bare, nofun⟩
  obtain ⟨hv, -, rooted, u, b, he⟩ := kept.reports Setting.powered_founding hr hx
  refine ⟨((LocalArchive.backendCall_runs hr).2 receipt hx).key, fun v a' hs ha => ?_⟩
  obtain ⟨hv', carries⟩ := hs.kept Setting.powered_founding hv
  obtain ⟨hroot, -⟩ := hv'.founded a' ha
  have object := ((carries _ rooted).2 _ _ _ he).object
  have lists : a'.Lists receipt v.disk := by
    refine ⟨endpoint (u :: attemptsDir root), ?_⟩
    rw [hroot]
    exact Disk.reads_of object.1
  exact lists.insists

/-- In such a run every entity in the metadata of a storage is one that was imported, and for each
of its anchors the archive has the imported bytes, after every loss of power too. -/
theorem content_archived (π : Policy (FileName κ) (Content κ)) (roots : Roots)
    (hb : Function.Injective Crates.blake3) (sys : System κ) (st : State κ)
    (h : System.Reachable π (.powered roots.archive) roots sys)
    (hv : World.Version roots.storage ⟨sys.disk, sys.live.storage⟩ st) :
    ∀ id e, st.entities.lookup id = some e → ∃ bytes, (id, bytes) ∈ sys.imports.begun ∧
      e.public.length = bytes.length ∧ e.public.digest = digestOf bytes ∧
      ∀ receipt ∈ e.public.anchors, ∃ u, Enduring roots.archive receipt u bytes sys.disk ∧
        ∀ s₁, (Setting.powered roots.archive).crash sys.disk s₁ →
          Recovers roots.archive receipt (u :: attemptsDir roots.archive) bytes s₁ := by
  intro id e he
  have kept := h.kept (anchorage π roots) fun s hb => ⟨Vault.Bare.solid hb, nofun⟩
  have anchored : st.Anchored roots sys.imports sys.disk := kept.store.version hv
  obtain ⟨bytes, hm, hc⟩ := anchored.origin id e he
  refine ⟨bytes, hm, hc.length, hc.digest, fun receipt hr => ?_⟩
  obtain ⟨ho, rooted, u, b, enduring⟩ := anchored.anchors id e he receipt hr
  have fits := ((anchored.coherent.entity id e he).anchors receipt hr).2.2
  obtain rfl := digestOf_injective hb
    (hc.digest.symm.trans (fits.symm.trans enduring.payload.digest))
  obtain ⟨begun, sound⟩ := kept.vault
  exact ⟨u, enduring, fun s₁ hx =>
    enduring.recovers_crash Setting.powered_gentle rooted sound.solid.tree ho hx⟩

/-- Power can be lost whenever what is there of the path to the layouts is safe. -/
def Setting.steady (roots : Roots) : Setting κ where
  crash s s' := s' = s.reboot ∨ Firm roots.storage s ∧ s.PowerLoss s'
  opens := Anchored roots.archive
  between := Beside roots.archive

omit [DecidableEq κ] [KeyHash κ] [Crates] in
theorem Setting.steady_founding {roots : Roots} :
    (Setting.steady roots : Setting κ).Founding roots.archive where
  crash h := h.imp_right And.right
  between := id
  anchored _ h := h

omit [DecidableEq κ] [KeyHash κ] [Crates] in
theorem Setting.steady_mild {roots : Roots} :
    (Setting.steady roots : Setting κ).Mild roots.storage := by
  rintro s s' (rfl | hp)
  · exact .inl (Disk.frame_reboot s)
  · exact .inr hp

/-- If power is lost only while the directories down to the layouts are durable too, all content
is preserved through its losses: an imported entity is there again, with its bytes in the layout
that it publishes and behind each of its anchors. -/
theorem content_durable (π : Policy (FileName κ) (Content κ)) (roots : Roots) (hπ : π.Fresh)
    (hb : Function.Injective Crates.blake3) (sys : System κ) (st : State κ)
    (h : System.Reachable π (.steady roots) roots sys)
    (hv : World.Version roots.storage ⟨sys.disk, sys.live.storage⟩ st) :
    sys.Preserves π roots st := by
  let c : Custody π (.steady roots) roots.archive :=
    .founded Setting.steady_founding fun _ _ h => h
  have kept := h.kept (preservation c Setting.steady_mild hπ) fun s hb =>
    ⟨Vault.Bare.solid hb, nofun⟩
  exact kept.preserves hb (fun _ _ hr => hr.2.2) hv

end

namespace Reference

theorem blank_anchored : Anchored ["a"] blank := by
  rintro p - hp
  exact hp

theorem filled_beside {s : Disk (FileName Keyed) (Content Keyed)}
    (h : s.lookup ["u0", "attempts", "a"] .sealed = none) : Beside ["a"] s (filled s) where
  files := Disk.frame_put fun hg => hg.2.2 rfl h
  path _ _ hp := hp
  tree ht := ht

theorem receipt_durable_uploaded :
    (∃ (v : Vault Keyed) (archive : LocalArchive) (x : committing.Ans)
      (s' : Disk (FileName Keyed) (Content Keyed)) (payload : Dir) (b : Bytes),
      Runs (fsMachine anything) (Stores.backendCall archive committing) (filled v.disk) x s' ∧
      committing.reports x = some receipt ∧ Recovers ["a"] receipt payload b s'.lose) ∧
    ∃ (sys : System Keyed) (payload : Dir) (b : Bytes), uploaded = some sys ∧
      Recovers ["a"] receipt payload b sys.disk.lose := by
  have ho : (Setting.powered ["a"]).opens blank := blank_anchored
  constructor
  · have unsealed : (attempting.map fun v =>
        (v.disk.lookup ["u0", "attempts", "a"] .sealed).isNone) = some true := by decide +kernel
    obtain ⟨⟨s, _, begun⟩, archive, x, s', hv, rfl, hs, run, hx⟩ := committed_runs _ ho
    rw [hv, Option.map_some, Option.some.injEq, Option.isNone_iff_eq_none] at unsealed
    have reached : Vault.From anything (.powered ["a"]) ["a"] ⟨filled s, some archive, begun⟩ :=
      ⟨blank, blank_bare _, .tail hs (.between (filled_beside unsealed))⟩
    obtain ⟨payload, b, -, -, recovers⟩ :=
      (receipt_durable anything both).1 _ _ _ _ _ _ _ _ reached run hx
    exact ⟨_, archive, x, s', payload, b, run, hx,
      recovers _ .refl _ (.inr (Disk.powerLoss_lose s'))⟩
  · obtain ⟨sys, self, hs, hl, reachable, he⟩ := uploaded_reachable _ ho
    obtain ⟨payload, b, recovers⟩ := (receipt_durable anything both).2 sys self.state reachable
      (.cached hl rfl) "e" _ he receipt (by decide)
    exact ⟨sys, payload, b, hs, recovers _ (.inr (Disk.powerLoss_lose sys.disk))⟩

/-- The metadata that a storage reads when it is opened. -/
def persisted (root : Dir) (s : Disk (FileName Keyed) (Content Keyed)) : Option (State Keyed) :=
  match s.lookup root .state with
  | some ⟨.state st, _⟩ => some st
  | _ => none

theorem persisted_version {s : Disk (FileName Keyed) (Content Keyed)} {root : Dir}
    {st : State Keyed} {handle : Option (LocalStorage Keyed)} (h : persisted root s = some st) :
    World.Version root ⟨s, handle⟩ st := by
  unfold persisted at h
  split at h
  · rename_i hl
    cases h
    exact .visible hl
  · cases h

/-- The content is there after a loss of power. -/
theorem content_durable_lost : ∃ sys, uploaded = some sys ∧
    sys.disk.lose.Holds (layoutDir ["s"] "u0") [0] := by
  have shown : (uploaded.bind fun sys => (persisted ["s"] sys.disk.lose).bind fun st =>
      (st.entities.lookup "e").bind Entity.published) = some "u0" := by decide +kernel
  have safe : (uploaded.map fun sys => (sys.imports.done, (layoutsDir ["s"]).tails.all
      sys.disk.safeDir)) = some ([("e", [0])], true) := by decide +kernel
  obtain ⟨sys, self, hs, hl, reachable, -⟩ := uploaded_reachable (.steady both) blank_anchored
  rw [hs, Option.map_some, Option.some.injEq, Prod.mk.injEq, List.all_eq_true] at safe
  obtain ⟨done, path⟩ := safe
  rw [hs, Option.bind_some] at shown
  obtain ⟨st, hp, shown⟩ := Option.bind_eq_some_iff.mp shown
  have tree : sys.disk.Tree := by
    obtain ⟨begun, sound⟩ := (reachable.kept (preservation (.founded Setting.steady_founding
      fun _ _ h => h) Setting.steady_mild anything_fresh) fun s hb =>
        ⟨Vault.Bare.solid hb, nofun⟩).vault
    exact sound.solid.tree
  have firm : Firm ["s"] sys.disk := ⟨tree, fun p hp _ => path p ((List.mem_tails _ _).mpr hp)⟩
  obtain ⟨s, bare, new, steps⟩ := reachable
  have lost : System.Reachable anything (.steady both) both
      ⟨sys.disk.lose, .dead, ⟨[] ++ sys.imports.begun, sys.imports.done⟩⟩ :=
    ⟨s, bare, new, steps.tail (.dies (.collects hl) (.here _ _)
      (.inr ⟨firm, Disk.powerLoss_lose _⟩))⟩
  have preserves := content_durable anything both anything_fresh blake3_injective _ st lost
    (persisted_version hp)
  obtain ⟨e, he, preserved⟩ := preserves.imported "e" [0] (by simp [done])
  rw [he, Option.bind_some] at shown
  exact ⟨sys, hs, preserved.layout "u0" shown⟩

/-- The surroundings of an archive that is opened on any disk. -/
def careless (root : Dir) : Setting Keyed := { Setting.powered root with opens := fun _ => True }

def vacant : Disk (FileName Keyed) (Content Keyed) :=
  { blank with
    dir := fun d => blank.dir d && !decide (d.headD "" = "a")
    safeDir := fun d => blank.dir d && !decide (d.headD "" = "a") }

theorem vacant_bare (root : Dir) : Bare root vacant where
  tree x p h := by
    simp only [vacant, Bool.and_eq_true] at h ⊢
    have hp := (blank_bare root).tree x p h.1
    simp only [blank, decide_eq_true_eq, List.mem_cons, List.cons.injEq, List.not_mem_nil] at h
    rcases h.1 with h | ⟨-, rfl⟩ | ⟨-, rfl⟩ | h
    · cases h
    · exact ⟨hp, rfl⟩
    · exact ⟨hp, rfl⟩
    · exact h.elim
  empty d n f _ hf := by
    rcases hf with hf | hf
    · simp [Disk.lookup, vacant, blank] at hf
    · cases hf

/-- The first opening of `/a` dies after it has made the directory, before it syncs its parent. -/
def interrupted : Option (HsmResult LocalArchive) × Disk (FileName Keyed) (Content Keyed) :=
  (LocalArchive.open ["a"] "b" : Io Keyed _).run.exec (fun _ => false) 3 [] vacant

/-- The next one goes well, and an attempt is prepared. -/
def reattempting : Option (Vault Keyed) :=
  (Vault.start ["a"] "b" ["t1"] interrupted.2.reboot).bind <| Vault.play (fun _ => false)
    [(.prepare ⟨"archive", 1, 1⟩ ⟨"b", "o"⟩ view, ["u0", "t2"])]

/-- The archive is opened after a crash and says of the key. -/
def consult (s : Disk (FileName Keyed) (Content Keyed)) : Option ArchiveStatus :=
  match (LocalArchive.open ["a"] "b" : Io Keyed _).run.exec (fun _ => false) 100 ["t5"] s with
  | (some (.ok archive), s₁) =>
      match ((archive.inspect ⟨"b", "o"⟩ : Io Keyed _).run.exec (fun _ => false) 100 [] s₁).1 with
      | some (.ok status) => some status
      | _ => none
  | _ => none

theorem consult_runs {s : Disk (FileName Keyed) (Content Keyed)} {status : ArchiveStatus}
    (h : consult s = some status) : ∃ (archive : LocalArchive) (s₁ s₂ : _),
      Runs (fsMachine anything) (LocalArchive.open ["a"] "b" : Io Keyed _).run s (.ok archive) s₁ ∧
      Runs (fsMachine anything) (archive.inspect ⟨"b", "o"⟩ : Io Keyed _).run s₁
        (.ok status) s₂ := by
  unfold consult at h
  split at h
  · rename_i archive s₁ he
    split at h
    · rename_i he'
      cases h
      have opened := Prog.exec_runs (π := anything) anything_generous (.inl rfl)
        (congrArg Prod.fst he)
      rw [he] at opened
      exact ⟨archive, s₁, _, opened,
        Prog.exec_runs (π := anything) anything_generous (.inl rfl) he'⟩
    · cases h
  · cases h

theorem lost : ∃ (v : Vault Keyed) (archive : LocalArchive) (x : committing.Ans)
    (s' : Disk (FileName Keyed) (Content Keyed)),
    Vault.From anything (careless ["a"]) ["a"] ⟨filled v.disk, some archive, v.begun⟩ ∧
    Runs (fsMachine anything) (Stores.backendCall archive committing) (filled v.disk) x s' ∧
    committing.reports x = some receipt ∧ consult s'.lose = some .absent := by
  have cut : interrupted.1 = none := Option.isNone_iff_eq_none.mp (by decide +kernel)
  have unsealed : (reattempting.map fun v =>
      (v.disk.lookup ["u0", "attempts", "a"] .sealed).isNone) = some true := by decide +kernel
  have hr : (reattempting.bind committed).map (fun x => (x.1, consult x.2.lose)) =
      some (some receipt, some .absent) := by decide +kernel
  obtain ⟨⟨r, s'⟩, hc, he⟩ := Option.map_eq_some_iff.mp hr
  obtain ⟨rfl, gone⟩ := Prod.mk.inj he
  obtain ⟨v, hv, hc⟩ := Option.bind_eq_some_iff.mp hc
  obtain ⟨archive, ha, hc⟩ := Option.bind_eq_some_iff.mp hc
  obtain ⟨v₀, h₀, h₁⟩ := Option.bind_eq_some_iff.mp hv
  rw [hv, Option.map_some, Option.some.injEq, Option.isNone_iff_eq_none] at unsealed
  obtain ⟨s, _, begun⟩ := v
  cases ha
  split at hc
  · rename_i x s₁ done
    obtain ⟨hx, rfl⟩ := Prod.mk.inj (Option.some.inj hc)
    have run := Prog.exec_runs (π := anything) anything_generous (.inl rfl) (congrArg Prod.fst done)
    rw [done] at run
    refine ⟨⟨s, some archive, begun⟩, archive, x, s₁, ⟨vacant, vacant_bare _, ?_⟩, run, hx, gone⟩
    have died : Vault.Step anything (careless ["a"]) ["a"] ⟨vacant, none, []⟩
        ⟨interrupted.2.reboot, none, []⟩ :=
      .cut trivial (Prog.exec_cuts (π := anything) anything_generous (.inl rfl) cut) (.inl rfl)
    have again : Vault.Step anything (careless ["a"]) ["a"] ⟨interrupted.2.reboot, none, []⟩ v₀ :=
      Vault.start_step anything_generous trivial h₀
    exact .tail (.trans (.head died (.single again))
      (Vault.play_steps anything_generous (.inl rfl) h₁)) (.between (filled_beside unsealed))
  · cases hc

/-- An archive may forget a receipt that it has reported. -/
theorem receipt_not_durable : ¬ ∀ (π : Policy (FileName Keyed) (Content Keyed)) (root : Dir)
    (a : LocalArchive) (s s' : Disk (FileName Keyed) (Content Keyed)) (begun : List BackendCall)
    (c : BackendCall) (x : c.Ans) (receipt : ArchiveReceipt),
      Vault.From π (careless root) root ⟨s, some a, begun⟩ →
      Runs (fsMachine π) (Stores.backendCall a c) s x s' → c.reports x = some receipt →
      ∃ payload b, s'.Holds payload b ∧ s'.lookup payload .sealed ≠ none ∧
        ∀ v, Vault.Steps π (careless root) root ⟨s', some a, c :: begun⟩ v →
          ∀ s₁, (careless root).crash v.disk s₁ → Recovers root receipt payload b s₁ := by
  intro h
  obtain ⟨v, archive, x, s', reached, run, hx, gone⟩ := lost
  obtain ⟨payload, b, -, -, hs⟩ := h _ _ _ _ _ _ _ _ _ reached run hx
  obtain ⟨archive', s₁, s₂, opened, inspected⟩ := consult_runs gone
  have recovers := hs _ .refl s'.lose (.inr (Disk.powerLoss_lose s'))
  cases (recovers.answers opened inspected).1

end Reference

end HsmRs
