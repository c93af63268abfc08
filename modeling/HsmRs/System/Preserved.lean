import HsmRs.Storage.Ownership
import HsmRs.System.Play
import HsmRs.System.Upkeep

/-! # Content is never lost

Whatever the engine does and wherever the process dies, an imported entity has its bytes in
the layout that it publishes and in the archive under each of its anchors, and it has one of
these.
-/

namespace HsmRs

section

variable {κ : Type} [DecidableEq κ] [KeyHash κ] [Crates] {π : Policy (FileName κ) (Content κ)}
  {s s' s₁ : Disk (FileName κ) (Content κ)} {root : Dir} {roots : Roots} {st next : State κ}
  {g : Imports} {bytes : Bytes}

/-! ## Layouts through crashes -/

/-- The directories are a tree, and each on the path to the layouts that is there has a safe
entry. -/
structure Firm (root : Dir) (s : Disk (FileName κ) (Content κ)) : Prop where
  tree : s.Tree
  path : Anchored (layoutsDir root) s

/-- Nothing is lost, or power is, of a disk on which the path to the layouts is durable. -/
def Weathers (root : Dir) (s s' : Disk (FileName κ) (Content κ)) : Prop :=
  Frame (fun _ _ => True) s s' ∨ Firm root s ∧ s.PowerLoss s'

omit [DecidableEq κ] [KeyHash κ] [Crates] in
theorem Firm.grounded (h : Firm root s) {d p : Dir} (hd : s.dir d = true) (hp : p <:+ d)
    (hr : p <:+ layoutsDir root) : s.Grounded p :=
  have hp := h.tree.suffix hd hp
  ⟨hp, h.path p hr hp⟩

namespace Weathers

variable {layout : String}

omit [DecidableEq κ] [KeyHash κ] [Crates]

theorem issued (h : Weathers root s s') {u : String} (hu : s.issued u = true) :
    s'.issued u = true := by
  rcases h with hf | ⟨-, hp⟩
  · exact hf.issued u hu
  · rw [hp.issued]
    exact hu

theorem grounded (h : Weathers root s s') (hg : s.Grounded (layoutDir root layout)) :
    s'.Grounded (layoutDir root layout) := by
  rcases h with hf | ⟨firm, hp⟩
  · exact hg.frame hf (n := .data) trivial
  have hd : s'.dir (layoutDir root layout) = true := by
    refine hp.dir_safe _ fun p hs => ?_
    rcases List.suffix_cons_iff.mp hs with rfl | hs'
    · exact hg
    · exact firm.grounded hg.1 hs hs'
  exact ⟨hd, by rw [hp.safeDir]; exact hd⟩

theorem bears [Crates] {length : Nat} {digest : ContentDigest} (h : Weathers root s s')
    (hg : s.Grounded (layoutDir root layout)) (hb : Bears root layout length digest s) :
    Bears root layout length digest s' := by
  have hg' := h.grounded hg
  rcases h with hf | ⟨-, hp⟩
  · exact hb.frame hf trivial trivial
  · exact hb.powerLoss hp hg'.1

theorem born (h : Weathers root s s') (hb : Born root s) : Born root s' := by
  rcases h with hf | ⟨firm, hp⟩
  · exact hb.frame hf trivial
  have hd : s'.dir root = true := hp.dir_safe _ fun p hs =>
    firm.grounded (Disk.dir_of_lookup hb.1) hs (hs.trans (List.suffix_cons _ _))
  exact Disk.Lasts.powerLoss hb hp hd

end Weathers

/-- What a crash may do to the disk. -/
def Setting.Mild (env : Setting κ) (root : Dir) : Prop :=
  ∀ s s', env.crash s s' → Weathers root s s'

omit [DecidableEq κ] [KeyHash κ] [Crates] in
theorem Setting.Mild.ends {env : Setting κ} (h : env.Mild root) (he : env.Ends s s') :
    Weathers root s s' := by
  rcases he with rfl | hx
  · exact .inl (.refl _)
  · exact h _ _ hx

/-! ## Entities and their content -/

/-- The entity has this content. -/
structure Entity.Contains (e : Entity) (bytes : Bytes) : Prop where
  length : e.public.length = bytes.length
  digest : e.public.digest = digestOf bytes

omit [DecidableEq κ] [KeyHash κ] in
theorem Entity.Descends.contains {request : Request} {e₀ e : Entity} (h : e₀.Descends request e)
    (hb : e₀.Contains bytes) : e.Contains bytes :=
  ⟨h.length.trans hb.length, h.digest.trans hb.digest⟩

/-- The content of the entity stands in the layout that it publishes and behind its anchors. -/
structure Entity.Stands (root : Dir) (backed : ArchiveReceipt → Prop)
    (s : Disk (FileName κ) (Content κ)) (e : Entity) : Prop where
  layout : ∀ layout, e.published = some layout →
    Bears root layout e.public.length e.public.digest s
  anchors : ∀ r ∈ e.public.anchors, backed r

/-- What holds of every version of the metadata. -/
structure State.Safe (root : Dir) (backed : ArchiveReceipt → Prop) (g : Imports)
    (s : Disk (FileName κ) (Content κ)) (st : State κ) : Prop where
  owned : st.Owned root s.issued
  origin : ∀ id e, st.entities.lookup id = some e →
    ∃ bytes, (id, bytes) ∈ g.begun ∧ e.Contains bytes
  stands : ∀ id e, st.entities.lookup id = some e → e.Stands root backed s
  entries : ∀ layout, st.Uses layout → s.Grounded (layoutDir root layout)
  done : ∀ id bytes, (id, bytes) ∈ g.done → ∃ e, st.entities.lookup id = some e ∧ e.Contains bytes

theorem Settles.origin {root : Dir} {fresh : String → Prop} {request : Request}
    {answer : HsmResult Reply} (hs : Settles root fresh st request answer (some next))
    (begun : ∀ id bytes, request = .import id bytes → (id, bytes) ∈ g.begun)
    (h : ∀ id e, st.entities.lookup id = some e →
      ∃ bytes, (id, bytes) ∈ g.begun ∧ e.Contains bytes) :
    ∀ id e, next.entities.lookup id = some e →
      ∃ bytes, (id, bytes) ∈ g.begun ∧ e.Contains bytes := by
  intro id e he
  rcases hs.inherits.origin e he with ⟨e₀, h₀, hd⟩ | ⟨layout, bytes, hq, -, rfl⟩
  · obtain ⟨bytes, hb, hc⟩ := h id e₀ h₀
    exact ⟨bytes, hb, hd.contains hc⟩
  · exact ⟨bytes, begun id bytes hq, rfl, rfl⟩

theorem Settles.anchored {root : Dir} {fresh : String → Prop} {request : Request}
    {answer : HsmResult Reply} {P : ArchiveReceipt → Prop}
    (hs : Settles root fresh st request answer (some next))
    (attached : ∀ ctx view r, request = .step ctx (.commitArchive view r) → P r)
    (h : ∀ id e, st.entities.lookup id = some e → ∀ r ∈ e.public.anchors, P r) :
    ∀ id e, next.entities.lookup id = some e → ∀ r ∈ e.public.anchors, P r := by
  intro id e he r hr
  rcases hs.inherits.origin e he with ⟨e₀, h₀, hd⟩ | ⟨layout, bytes, -, -, rfl⟩
  · rcases hd.anchors r hr with hr | ⟨ctx, view, hq⟩
    · exact h id e₀ h₀ r hr
    · exact attached ctx view r hq
  · cases hr

namespace State.Safe

variable {backed backed' : ArchiveReceipt → Prop}

omit [DecidableEq κ] [KeyHash κ] in
/-- What spares the entries of the layouts that are used, and the content of those published. -/
theorem spared {K : Dir → FileName κ → Prop} (h : st.Safe root backed g s)
    (issued : ∀ u, s.issued u = true → s'.issued u = true) (hf : Frame K s s')
    (entry : ∀ layout, st.Uses layout → K (layoutDir root layout) .ownerLock)
    (content : ∀ layout, st.Publishes layout → s.lookup (layoutDir root layout) .sealed ≠ none →
      K (layoutDir root layout) .data ∧ K (layoutDir root layout) .sealed)
    (carry : ∀ r, backed r → backed' r) : st.Safe root backed' g s' := by
  refine ⟨⟨h.owned.coherent, h.owned.nodup, fun l hl => issued l (h.owned.issued l hl)⟩, h.origin,
    fun id e he => ⟨fun layout hp => ?_, fun r hr => carry r ((h.stands id e he).anchors r hr)⟩,
    fun layout hu => (h.entries layout hu).frame hf (entry layout hu), h.done⟩
  have hb := (h.stands id e he).layout layout hp
  obtain ⟨data, mark⟩ := content layout ⟨id, e, he, hp⟩ hb.mark.1
  exact hb.frame hf data mark

omit [DecidableEq κ] [KeyHash κ] in
theorem shown (h : st.Safe root backed g s)
    (issued : ∀ u, s.issued u = true → s'.issued u = true) (hf : Frame (Shown root st s) s s')
    (carry : ∀ r, backed r → backed' r) : st.Safe root backed' g s' := by
  refine h.spared issued hf (fun layout hu => ?_) (fun layout hp _ => ?_) carry
  · exact .entry hu (h.owned.used hu) (h.entries layout hu).1
  · obtain ⟨hr, hg⟩ := h.owned.published hp
    have hd := (h.entries layout (.inl hp)).1
    exact ⟨.content hp hr hg hd (.inl rfl), .content hp hr hg hd (.inr rfl)⟩

omit [DecidableEq κ] [KeyHash κ] in
theorem weathers (h : st.Safe root backed g s) (hw : Weathers root s s') :
    st.Safe root backed g s' :=
  ⟨⟨h.owned.coherent, h.owned.nodup, fun l hl => hw.issued (h.owned.issued l hl)⟩, h.origin,
    fun id e he => ⟨fun layout hp => hw.bears (h.entries layout (.inl ⟨id, e, he, hp⟩))
      ((h.stands id e he).layout layout hp), (h.stands id e he).anchors⟩,
    fun layout hu => hw.grounded (h.entries layout hu), h.done⟩

theorem settles (hπ : π.Fresh) {request : Request} {answer : HsmResult Reply}
    (hs : Settles root (Given π s.issued s'.issued) st request answer (some next))
    (attached : ∀ ctx view r, request = .step ctx (.commitArchive view r) → backed r)
    (begun : ∀ id bytes, request = .import id bytes → (id, bytes) ∈ g.begun)
    (hl : Lays root st next s s') (issued : ∀ u, s.issued u = true → s'.issued u = true)
    (h : st.Safe root backed g s) : next.Safe root backed g s' := by
  have before := h.shown issued hl.frame (fun _ => id)
  have anchors := hs.anchored attached fun id e he => (h.stands id e he).anchors
  refine ⟨(h.owned.settles hπ issued hs).2, hs.origin begun h.origin,
    fun id e he => ⟨fun layout hp => ?_, anchors id e he⟩, fun layout hu => ?_,
    fun id bytes hd => ?_⟩
  · rcases hl.provides.content id e layout he hp with ⟨e₀, h₀, hp₀, hn, hg⟩ | hb
    · rw [← hn, ← hg]
      exact (before.stands id e₀ h₀).layout layout hp₀
    · exact hb
  · exact (hl.provides.entry layout hu).elim (before.entries layout) id
  · obtain ⟨e₀, h₀, hc⟩ := h.done id bytes hd
    obtain ⟨e, he⟩ := Option.ne_none_iff_exists'.mp (hs.inherits.stays e₀ h₀)
    rcases hs.inherits.origin e he with ⟨e₁, h₁, hd⟩ | ⟨layout, bytes, -, hn, rfl⟩
    · obtain rfl := Option.some.inj (h₀.symm.trans h₁)
      exact ⟨e, he, hd.contains hc⟩
    · rw [hn] at h₀
      cases h₀

end State.Safe

/-- Whatever is kept of the archive, the content of the entities is preserved through crashes
that the layouts weather. -/
def preservation {env : Setting κ} (c : Custody π env roots.archive)
    (mild : env.Mild roots.storage) (hπ : π.Fresh) : Upkeep π env roots where
  toCustody := c
  valid g s st := st.Safe roots.storage (c.backed s) g s
  begins h := ⟨h.owned, fun id e he => (h.origin id e he).imp fun _ hb =>
    hb.imp_left (List.mem_append_right _), h.stands, h.entries, h.done⟩
  new := by
    intro g s a b hd
    have done : g.done = [] := hd fun s s' hx => (mild s s' hx).born
    refine ⟨.new, ?_, ?_, ?_, ?_⟩
    · simp [State.new]
    · simp [State.new]
    · simp [State.Uses, State.Publishes, State.new]
    · simp [done]
  still := by
    intro g s s₁ s' st hf he carry h
    have settled : ∀ layout (n : FileName κ), Named (layoutDir roots.storage layout) n →
        (n = .data → s.lookup (layoutDir roots.storage layout) .sealed ≠ none) →
        Settled roots.storage s (layoutDir roots.storage layout) n := fun layout n hn mark =>
      ⟨⟨hn, suffix_layoutDir, mark⟩, fun h => layoutDir_ne_root h.1⟩
    refine (h.spared hf.issued hf (fun layout _ => settled layout _ id nofun)
      (fun layout _ mark => ?_) carry).weathers (mild.ends he)
    exact ⟨settled layout _ id fun _ => mark, settled layout _ id nofun⟩
  kept hl issued he carry h := (h.shown issued hl.frame carry).weathers (mild.ends he)
  moved hs attached begun hl issued he carry h :=
    ((h.shown (fun _ => id) (.refl _) carry).settles hπ hs
      (fun ctx view r hq => carry r (attached ctx view r hq)) begun hl issued).weathers
      (mild.ends he)
  imported := by
    intro g s st next id bytes fresh x hs h
    refine ⟨h.owned, h.origin, h.stands, h.entries, fun id' bytes' hm => ?_⟩
    rcases List.mem_cons.mp hm with he | hm
    · cases he
      cases hs
      exact ⟨_, by rw [Table.lookup_insert, if_pos rfl], rfl, rfl⟩
    · exact h.done id' bytes' hm

/-! ## Whole runs -/

omit [KeyHash κ] [Crates] in
/-- What is read of an entity is the payload of the layout that it publishes. -/
theorem LocalStorage.read_runs {self : LocalStorage κ} {entity : EntityKey} {b : Bytes}
    (h : Runs (fsMachine π) (self.read entity).run s (.ok b) s') :
    ∃ e layout, self.state.entities.lookup entity.entity = some e ∧ e.published = some layout ∧
      s.Holds (layoutDir self.root layout) b := by
  have hw : (self.read entity).run.wp (fsMachine π) (fun _ => True) (fun r _ => ∀ b, r = .ok b →
      ∃ e layout, self.state.entities.lookup entity.entity = some e ∧ e.published = some layout ∧
        s.Holds (layoutDir self.root layout) b) s := by
    refine Prog.wp_check trivial (fun _ _ => nofun) fun _ _ => ?_
    refine Prog.wp_check trivial (fun _ _ => nofun) fun _ _ => ?_
    refine Prog.wp_check trivial (fun _ _ => nofun) fun e he => ?_
    refine Prog.wp_check trivial (fun _ _ => nofun) fun layout hp => ?_
    apply Prog.wp_run_bind_of
    refine wp_readFile trivial (fun f hf => ?_) fun _ _ _ => nofun
    obtain ⟨c, x⟩ := f
    cases c with
    | bytes b =>
      refine ⟨trivial, ?_⟩
      rintro _ ⟨⟩
      exact ⟨e, layout, HsmResult.okOr_eq_ok.mp he, HsmResult.okOr_eq_ok.mp hp, x, hf⟩
    | _ => exact ⟨trivial, nofun⟩
  have := Prog.wp_sound_runs hw h
  exact this b rfl

/-- The bytes of the entity are where its metadata say. -/
structure Entity.Preserved (roots : Roots) (s : Disk (FileName κ) (Content κ)) (e : Entity)
    (bytes : Bytes) : Prop where
  layout : ∀ layout, e.published = some layout → s.Holds (layoutDir roots.storage layout) bytes
  anchors : ∀ r ∈ e.public.anchors, ∃ u, Enduring roots.archive r u bytes s
  either : e.published ≠ none ∨ e.public.anchors ≠ []

omit [DecidableEq κ] in
theorem digestOf_injective (hb : Function.Injective Crates.blake3) :
    Function.Injective (digestOf : Bytes → ContentDigest) := fun _ _ h =>
  hb (ContentDigest.mk.inj h).2

omit [DecidableEq κ] in
theorem State.Safe.preserved (hb : Function.Injective Crates.blake3)
    {backed : ArchiveReceipt → Prop} (h : st.Safe roots.storage backed g s)
    (hk : ∀ r, backed r → ∃ u b, Enduring roots.archive r u b s)
    {id : String} {e : Entity} (he : st.entities.lookup id = some e) (hc : e.Contains bytes) :
    e.Preserved roots s bytes := by
  have fits := h.owned.coherent.entity id e he
  refine ⟨fun layout hp => ?_, fun r hr => ?_, ?_⟩
  · obtain ⟨b, held, -, hd⟩ := ((h.stands id e he).layout layout hp).holds
    obtain rfl := digestOf_injective hb (hc.digest.symm.trans hd)
    exact held
  · obtain ⟨u, b, enduring⟩ := hk r ((h.stands id e he).anchors r hr)
    obtain rfl := digestOf_injective hb
      (hc.digest.symm.trans ((fits.anchors r hr).2.2.symm.trans enduring.payload.digest))
    exact ⟨u, enduring⟩
  · by_contra hn
    rw [not_or, not_not, not_not] at hn
    have offline := fits.offline.mpr hn.1
    rw [fits.online.mpr hn.2] at offline
    cases offline

/-- What has been imported is there, and all that is there has been imported and is preserved, in
this version of the metadata. -/
structure System.Preserves (π : Policy (FileName κ) (Content κ)) (roots : Roots) (sys : System κ)
    (st : State κ) : Prop where
  imported : ∀ id bytes, (id, bytes) ∈ sys.imports.done →
    ∃ e, st.entities.lookup id = some e ∧ e.Preserved roots sys.disk bytes
  entity : ∀ id e, st.entities.lookup id = some e → ∃ bytes, (id, bytes) ∈ sys.imports.begun ∧
    (∀ bytes', (id, bytes') ∈ sys.imports.done → bytes' = bytes) ∧
    e.Preserved roots sys.disk bytes ∧
    ∀ self entity b s', sys.live.storage = some self → self.state = st → entity.entity = id →
      Runs (fsMachine π) (self.read entity).run sys.disk (.ok b) s' → b = bytes

theorem System.Kept.preserves {env : Setting κ} {c : Custody π env roots.archive}
    {mild : env.Mild roots.storage} {hπ : π.Fresh} {sys : System κ}
    (kept : sys.Kept (preservation c mild hπ)) (hb : Function.Injective Crates.blake3)
    (hk : ∀ s r, c.backed s r → ∃ u b, Enduring roots.archive r u b s)
    (hv : World.Version roots.storage ⟨sys.disk, sys.live.storage⟩ st) :
    sys.Preserves π roots st := by
  have safe : st.Safe roots.storage (c.backed sys.disk) sys.imports sys.disk :=
    kept.store.version hv
  refine ⟨fun id bytes hd => ?_, fun id e he => ?_⟩
  · obtain ⟨e, he, hc⟩ := safe.done id bytes hd
    exact ⟨e, he, safe.preserved hb (hk _) he hc⟩
  obtain ⟨bytes, hm, hc⟩ := safe.origin id e he
  have preserved := safe.preserved hb (hk _) he hc
  refine ⟨bytes, hm, fun bytes' hd => ?_, preserved, ?_⟩
  · obtain ⟨e', he', hc'⟩ := safe.done id bytes' hd
    obtain rfl := Option.some.inj (he.symm.trans he')
    exact digestOf_injective hb (hc'.digest.symm.trans hc.digest)
  · rintro self entity b s' hs rfl rfl hr
    obtain ⟨e', layout, he', hp, held⟩ := LocalStorage.read_runs hr
    obtain rfl := Option.some.inj (he.symm.trans he')
    rw [kept.store.root_eq self hs] at held
    exact held.unique (preserved.layout layout hp)

/-! ## Processes that die -/

/-- Processes die at any moment, and others write no payload that is sealed. -/
def Setting.mortal (root : Dir) : Setting κ where
  crash s s' := s' = s.reboot
  opens _ := True
  between := Beside root

omit [DecidableEq κ] [KeyHash κ] [Crates] in
theorem Setting.mortal_gentle : (Setting.mortal root : Setting κ).Gentle root := ⟨.inl, id⟩

omit [DecidableEq κ] [KeyHash κ] [Crates] in
theorem Setting.mortal_mild {archive : Dir} : (Setting.mortal archive : Setting κ).Mild root :=
  fun s _ h => .inl (h ▸ Disk.frame_reboot s)

def Custody.mortal (π : Policy (FileName κ) (Content κ)) (root : Dir) :
    Custody π (.mortal root) root where
  sound v := v.Solid root
  backed s r := ∃ u b, Enduring root r u b s
  gentle := Setting.mortal_gentle
  solid h := h
  between h := h
  step := by
    intro v v' hv h
    refine ⟨(h.solid Setting.mortal_gentle hv).1, fun r ⟨u, b, he⟩ => ?_⟩
    rcases h.course Setting.mortal_gentle hv with ho | ⟨s, ho, hc⟩
    · exact ⟨u, b, he.onward ho⟩
    · rw [show v'.disk = s.reboot from hc]
      exact ⟨u, b, (he.onward ho).onward (.of_frame (Disk.frame_reboot s))⟩
  told := by
    intro a s s' begun c x r hv hr hx
    obtain ⟨rfl, -⟩ := hv.handle a rfl
    have called : Vault.Step π (.mortal a.root) a.root ⟨s, some a, begun⟩
        ⟨s', some a, c :: begun⟩ := .call hr
    have stored := (called.solid Setting.mortal_gentle hv).1.stored
    exact (Enduring.of_knows stored ((LocalArchive.backendCall_runs hr).2 r hx)).2

/-- In every reachable state an entity that has been imported is there, and every entity is one
that was imported: the layout that it publishes holds exactly the imported bytes, and so does the
payload of the object that the archive has committed for each of its anchors; it publishes a
layout or has an anchor; and what is read of it is what was imported. Processes may die at any
moment, but no power is lost: `content_durable` and `content_archived` are for that. -/
theorem content_preserved (π : Policy (FileName κ) (Content κ)) (roots : Roots) (hπ : π.Fresh)
    (hb : Function.Injective Crates.blake3) (sys : System κ) (st : State κ)
    (h : System.Reachable π (.mortal roots.archive) roots sys)
    (hv : World.Version roots.storage ⟨sys.disk, sys.live.storage⟩ st) :
    (∀ id bytes, (id, bytes) ∈ sys.imports.done →
      ∃ e, st.entities.lookup id = some e ∧ e.Preserved roots sys.disk bytes) ∧
    ∀ id e, st.entities.lookup id = some e → ∃ bytes, (id, bytes) ∈ sys.imports.begun ∧
      (∀ bytes', (id, bytes') ∈ sys.imports.done → bytes' = bytes) ∧
      e.Preserved roots sys.disk bytes ∧
      ∀ self entity b s', sys.live.storage = some self → self.state = st → entity.entity = id →
        Runs (fsMachine π) (self.read entity).run sys.disk (.ok b) s' → b = bytes := by
  have kept := h.kept (preservation (.mortal π roots.archive) Setting.mortal_mild hπ)
    fun s hb => Vault.Bare.solid hb
  have preserves := kept.preserves hb (fun _ _ hr => hr) hv
  exact ⟨preserves.imported, preserves.entity⟩

end

namespace Reference

theorem content_preserved_uploaded : ∃ sys, uploaded = some sys ∧
    sys.disk.Holds (layoutDir ["s"] "u0") [0] ∧ ∃ u, Enduring ["a"] receipt u [0] sys.disk := by
  have hd : uploaded.map (·.imports.done) = some [("e", [0])] := by decide +kernel
  obtain ⟨sys, self, hs, hl, reachable, he⟩ := uploaded_reachable (.mortal ["a"]) trivial
  rw [hs, Option.map_some, Option.some.injEq] at hd
  obtain ⟨e, he', preserved⟩ := (content_preserved anything both anything_fresh blake3_injective sys
    self.state reachable (.cached hl rfl)).1 "e" [0] (by simp [hd])
  obtain rfl := Option.some.inj (he.symm.trans he')
  exact ⟨sys, hs, preserved.layout "u0" rfl, preserved.anchors receipt (by decide)⟩

end Reference

end HsmRs
