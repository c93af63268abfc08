import HsmRs.Engine.Transfers
import HsmRs.Storage.Holding
import HsmRs.System.Views

/-! # Invariants of the system

A step of the system changes the metadata of the storage by what one request decides, and
the archive by one call, one opening or something beside it. What this keeps holds in
every reachable state of all versions of the metadata, and of the receipts that engines in
flight have been told.
-/

namespace HsmRs

variable {κ : Type} {s s' s₁ : Disk (FileName κ) (Content κ)} {root : Dir}
  {P R : State κ → Prop}

/-! ## The metadata of a storage -/

/-- A crash loses no version that satisfies `P`. -/
theorem Cells.crash {env : Setting κ} {archive : Dir} (genv : env.Gentle archive)
    (h : Cells root P s) (hx : env.crash s s') : Cells root P s' := by
  rcases genv.crash hx with rfl | hp
  · exact h.frame (K := Named) (Disk.frame_reboot s) fun h => h
  · have visible : Held P (s'.lookup root .state) := by
      by_cases hr : s'.dir root = true
      · rcases hp.lookup hr .state with hv | hv
        · exact h.1.survives hv
        · exact h.2.survives hv
      · simpa [Disk.lookup, hr] using Held.none
    exact ⟨visible, by rw [hp.safeFile]; exact visible⟩

/-! ## Engines in flight -/

def Told (past : List (Event engineSig)) (receipt : ArchiveReceipt) : Prop :=
  ∃ (c : BackendCall) (x : c.Ans), ⟨.backend c, x⟩ ∈ past ∧ c.reports x = some receipt

/-- Only receipts that the archive has reported are attached. -/
def Attaches (past : List (Event engineSig)) : Call → Prop
  | .storage (.commitArchive _ _ receipt) => Told past receipt
  | _ => True

theorem told_concat {past : List (Event engineSig)} {e : Event engineSig} {receipt : ArchiveReceipt}
    (h : Told (past ++ [e]) receipt) : Told past receipt ∨
      ∃ (c : BackendCall) (x : c.Ans), e = ⟨.backend c, x⟩ ∧ c.reports x = some receipt := by
  obtain ⟨c, x, hm, hr⟩ := h
  rcases List.mem_append.mp hm with hm | hm
  · exact .inl ⟨c, x, hm, hr⟩
  · exact .inr ⟨c, x, (List.mem_singleton.mp hm).symm, hr⟩

open HsmEngine in
theorem EngineCall.traces (c : EngineCall) :
    c.workflow.run.Traces Attaches (fun _ _ => True) [] := by
  cases c with
  | archive ctx data key =>
    refine Prog.Traces.mono traces_archive (fun past c h => ?_) fun _ _ _ => trivial
    cases h with
    | commitArchive _ ha =>
      cases ha with
      | inspected hm => exact ⟨_, _, hm, rfl⟩
      | resumed hm => exact ⟨_, _, hm, rfl⟩
      | committed hm => exact ⟨_, _, hm, rfl⟩
    | _ => trivial
  | release ctx expected =>
    refine Prog.Traces.mono traces_release (fun past c h => ?_) fun _ _ _ => trivial
    cases h <;> trivial
  | «recall» ctx expected key =>
    refine Prog.Traces.mono traces_recall (fun past c h => ?_) fun _ _ _ => trivial
    cases h <;> trivial

/-! ## Laws of an invariant -/

/-- The files of a storage that neither others nor an opening touch. -/
def Settled (root : Dir) (s : Disk (FileName κ) (Content κ)) (d : Dir) (n : FileName κ) : Prop :=
  Guarded root s d n ∧ ¬ (d = root ∧ n = .state)

/-- Nothing more happens, or a crash does. -/
def Setting.Ends (env : Setting κ) (s s' : Disk (FileName κ) (Content κ)) : Prop :=
  s' = s ∨ env.crash s s'

variable [DecidableEq κ] [KeyHash κ] [Crates] {π : Policy (FileName κ) (Content κ)}
  {env : Setting κ} {roots : Roots}

/-- What is kept of the archive and of the receipts that it backs, by its own steps and by what
happens beside it. -/
structure Custody (π : Policy (FileName κ) (Content κ)) (env : Setting κ) (root : Dir) where
  sound : Vault κ → Prop
  backed : Disk (FileName κ) (Content κ) → ArchiveReceipt → Prop
  gentle : env.Gentle root
  solid : ∀ {v}, sound v → v.Solid root
  between : ∀ {s s'}, Beside root s s' → env.between s s'
  step : ∀ {v v'}, sound v → Vault.Step π env root v v' →
    sound v' ∧ ∀ r, backed v.disk r → backed v'.disk r
  told : ∀ {a s s' begun c x r}, sound ⟨s, some a, begun⟩ →
    Runs (fsMachine π) (Stores.backendCall a c) s x s' → c.reports x = some r → backed s' r

/-- What is kept of the metadata of the storage too: by what happens outside of them, and by the
calls of the storage, which only attaches receipts that are backed. -/
structure Upkeep (π : Policy (FileName κ) (Content κ)) (env : Setting κ) (roots : Roots) extends
    Custody π env roots.archive where
  valid : Imports → Disk (FileName κ) (Content κ) → State κ → Prop
  begins : ∀ {begun more done s st}, valid ⟨begun, done⟩ s st → valid ⟨more ++ begun, done⟩ s st
  new : ∀ {g s a b}, ((∀ s s', env.crash s s' → Born roots.storage s → Born roots.storage s') →
    g.done = []) → valid g s (State.new a b)
  still : ∀ {g s s₁ s' st}, Frame (Settled roots.storage s) s s₁ → env.Ends s₁ s' →
    (∀ r, backed s r → backed s' r) → valid g s st → valid g s' st
  kept : ∀ {g s s₁ s' st next}, Lays roots.storage st next s s₁ →
    (∀ u, s.issued u = true → s₁.issued u = true) → env.Ends s₁ s' →
    (∀ r, backed s r → backed s' r) → valid g s st → valid g s' st
  moved : ∀ {g s s₁ s' st next request answer},
    Settles roots.storage (Given π s.issued s₁.issued) st request answer (some next) →
    (∀ ctx view r, request = .step ctx (.commitArchive view r) → backed s r) →
    (∀ id bytes, request = .import id bytes → (id, bytes) ∈ g.begun) →
    Lays roots.storage st next s s₁ → (∀ u, s.issued u = true → s₁.issued u = true) →
    env.Ends s₁ s' → (∀ r, backed s r → backed s' r) → valid g s st → valid g s' next
  imported : ∀ {g : Imports} {s st next id bytes fresh x},
    Settles roots.storage fresh st (.import id bytes) (.ok x) (some next) →
    valid g s next → valid { g with done := (id, bytes) :: g.done } s next

def Upkeep.Trusts (u : Upkeep π env roots) (s : Disk (FileName κ) (Content κ))
    (p : Prog engineSig (HsmResult EntityState)) : Prop :=
  ∃ past, p.Traces Attaches (fun _ _ => True) past ∧ ∀ r, Told past r → u.backed s r

structure System.Kept (u : Upkeep π env roots) (sys : System κ) : Prop where
  vault : ∃ begun, u.sound ⟨sys.disk, sys.live.archive, begun⟩
  store : Holding roots.storage (u.valid sys.imports sys.disk) sys.disk sys.live.storage
  born : (∀ s s', env.crash s s' → Born roots.storage s → Born roots.storage s') →
    sys.imports.done ≠ [] → Born roots.storage sys.disk
  engines : ∀ p ∈ sys.live.engines, u.Trusts sys.disk p

theorem Custody.steps {root : Dir} (u : Custody π env root) {v v' : Vault κ}
    (h : Vault.Steps π env root v v') (hv : u.sound v) :
    u.sound v' ∧ ∀ r, u.backed v.disk r → u.backed v'.disk r := by
  induction h with
  | refl => exact ⟨hv, fun _ hr => hr⟩
  | tail _ hs ih =>
    obtain ⟨hv', hb⟩ := u.step ih.1 hs
    exact ⟨hv', fun r hr => hb r (ih.2 r hr)⟩

namespace Upkeep

variable (u : Upkeep π env roots) {g : Imports} {handle : Option (LocalStorage κ)}
  {self self' : LocalStorage κ} {request : Request} {answer : HsmResult Reply}

/-- The request is one of the system: what it attaches is backed and what it imports is begun. -/
structure Asked (g : Imports) (s : Disk (FileName κ) (Content κ)) (request : Request) : Prop where
  attached : ∀ ctx view r, request = .step ctx (.commitArchive view r) → u.backed s r
  begun : ∀ id bytes, request = .import id bytes → (id, bytes) ∈ g.begun

theorem cells_beside (h : Cells roots.storage (u.valid g s) s)
    (hf : Frame (Guarded roots.storage s) s s₁) (he : env.Ends s₁ s')
    (carry : ∀ r, u.backed s r → u.backed s' r) : Cells roots.storage (u.valid g s') s₁ := by
  have := h.frame hf ⟨fun h => h, List.suffix_refl _, nofun⟩
  exact this.mono fun _ hv => u.still (hf.mono fun _ _ hk => hk.1) he carry hv

theorem holds_beside (h : Holding roots.storage (u.valid g s) s handle)
    (hf : Frame (Guarded roots.storage s) s s')
    (carry : ∀ r, u.backed s r → u.backed s' r) :
    Holding roots.storage (u.valid g s') s' handle ∧
      (Born roots.storage s → Born roots.storage s') := by
  have hk : Guarded roots.storage s roots.storage .state := ⟨fun h => h, List.suffix_refl _, nofun⟩
  refine ⟨(h.frame hf hk).mono fun _ hv => ?_, fun hb => hb.frame hf hk⟩
  exact u.still (hf.mono fun _ _ hk => hk.1) (.inl rfl) carry hv

theorem cells_cut (request : Request) (h : Holding roots.storage (u.valid g s) s (some self))
    (hc : Cuts (fsMachine π) (self.perform request) s s₁) (asked : u.Asked g s request)
    (he : env.Ends s₁ s') (carry : ∀ r, u.backed s r → u.backed s' r) :
    Cells roots.storage (u.valid g s') s₁ ∧ (Born roots.storage s → Born roots.storage s₁) := by
  have issued : ∀ u, s.issued u = true → s₁.issued u = true := fun _ => hc.issued
  refine h.cut hc ?_ ?_ ?_
  · rintro rfl st hv
    exact u.still (.refl _) he carry hv
  · intro next hl hv
    exact u.kept hl issued he carry hv
  · intro answer next ha hl hv
    exact u.moved ha asked.attached asked.begun hl issued he carry hv

theorem holds_call (request : Request) (h : Holding roots.storage (u.valid g s) s (some self))
    (hr : Runs (fsMachine π) (self.perform request) s (answer, self') s')
    (asked : u.Asked g s request) (carry : ∀ r, u.backed s r → u.backed s' r) :
    Holding roots.storage (u.valid g s') s' (some self') ∧
      (Born roots.storage s → Born roots.storage s') ∧
      ∀ id bytes x, request = .import id bytes → answer = .ok x →
        Holding roots.storage (u.valid { g with done := (id, bytes) :: g.done } s') s'
          (some self') ∧
          Born roots.storage s' := by
  have issued : ∀ u, s.issued u = true → s'.issued u = true := fun _ => hr.issued
  have still : ∀ {st}, s' = s → u.valid g s st → u.valid g s' st := by
    rintro st rfl hv
    exact hv
  have kept : ∀ {next}, Lays roots.storage self.state next s s' → u.valid g s self.state →
      u.valid g s' self.state := fun hl hv => u.kept hl issued (.inl rfl) carry hv
  have moved : ∀ {answer next},
    Settles roots.storage (Given π s.issued s'.issued) self.state request
      answer (some next) → Lays roots.storage self.state next s s' → u.valid g s self.state →
      u.valid g s' next := fun ha hl hv =>
    u.moved ha asked.attached asked.begun hl issued (.inl rfl) carry hv
  obtain ⟨hk, hb⟩ := h.call hr (fun he _ _ hv => still he hv) (fun _ _ hl hv => kept hl hv)
    fun _ _ _ ha hl hv => moved ha hl hv
  refine ⟨hk, fun h => hb (.inl h), ?_⟩
  rintro id bytes x rfl rfl
  have done := h.call (R := u.valid { g with done := (id, bytes) :: g.done } s') hr
    (fun _ hn => (hn x rfl).elim) (fun _ ha _ _ => ?_) fun _ next ha hs hl hv => ?_
  · exact ⟨done.1, hb (.inr ⟨x, rfl⟩)⟩
  · cases ha x rfl
  · obtain rfl := ha x rfl
    exact u.imported hs (moved hs hl hv)

omit [DecidableEq κ] [KeyHash κ] [Crates] in
theorem spares_open : (LocalStorage.open roots.storage : Io κ _).run.Within
    (FsOp.Spares fun d n => Guarded roots.storage s d n ∧ ¬ (d = roots.storage ∧ n = .state)) :=
  LocalStorage.spares_open (fun _ _ h => h.1.1) fun h => h.2 ⟨rfl, rfl⟩

theorem opened (h : Cells roots.storage (u.valid g s) s)
    (new : ¬ Born roots.storage s → ∀ a b, u.valid g s (State.new a b))
    {x : HsmResult (LocalStorage κ)}
    (hr : Runs (fsMachine π) (LocalStorage.open roots.storage).run s x s')
    (carry : ∀ r, u.backed s r → u.backed s' r) :
    Holding roots.storage (u.valid g s') s' x.toOption ∧
      (Born roots.storage s → Born roots.storage s') := by
  have still : ∀ st, u.valid g s st → u.valid g s' st := fun _ hv =>
    u.still (hr.frame spares_open) (.inl rfl) carry hv
  obtain ⟨⟨hc, hb⟩, ho⟩ := Prog.wp_sound_runs
    (wp_open (π := π) h fun hn => new fun hb => hb.1 (hn.resolve_left nofun)) hr
  refine ⟨?_, hb⟩
  rcases x with e | self
  · exact .closed (hc.mono still)
  · obtain ⟨hroot, -, hp, hs⟩ := ho self rfl
    exact .of_safe hroot hs (still _ hp)

theorem cells_open (h : Cells roots.storage (u.valid g s) s)
    (new : ¬ Born roots.storage s → ∀ a b, u.valid g s (State.new a b))
    (hc : Cuts (fsMachine π) (LocalStorage.open roots.storage : Io κ _).run s s₁)
    (he : env.Ends s₁ s') (carry : ∀ r, u.backed s r → u.backed s' r) :
    Cells roots.storage (u.valid g s') s₁ ∧ (Born roots.storage s → Born roots.storage s₁) := by
  obtain ⟨hk, hb⟩ := Prog.wp_sound_cuts (wp_open (π := π) h fun hn => new fun hb =>
    hb.1 (hn.resolve_left nofun)) hc
  exact ⟨hk.mono fun _ hv => u.still (hc.frame spares_open) he carry hv, hb⟩

namespace Trusts

variable {u : Upkeep π env roots} {p : Prog engineSig (HsmResult EntityState)}

theorem carry (h : u.Trusts s p) (hc : ∀ r, u.backed s r → u.backed s' r) : u.Trusts s' p := by
  obtain ⟨past, traces, told⟩ := h
  exact ⟨past, traces, fun r hr => hc r (told r hr)⟩

theorem workflow (c : EngineCall) : u.Trusts s c.workflow.run := by
  refine ⟨[], c.traces, fun r hr => ?_⟩
  obtain ⟨c, x, hm, -⟩ := hr
  simp at hm

theorem answered {c : Call} {k : c.Ans → Prog engineSig (HsmResult EntityState)} {x : c.Ans}
    (h : u.Trusts s (.op c k)) (carry : ∀ r, u.backed s r → u.backed s' r)
    (told : ∀ (b : BackendCall) (y : b.Ans) r, (⟨c, x⟩ : Event engineSig) = ⟨.backend b, y⟩ →
      b.reports y = some r → u.backed s' r) : u.Trusts s' (k x) := by
  obtain ⟨past, traces, hp⟩ := h
  obtain ⟨-, onward⟩ := Prog.traces_op.mp traces
  refine ⟨past ++ [⟨c, x⟩], onward x, fun r hr => ?_⟩
  rcases told_concat hr with hr | ⟨b, y, he, hr⟩
  · exact carry r (hp r hr)
  · exact told b y r he hr

theorem attaches {ctx : OperationContext} {view : DataView} {receipt : ArchiveReceipt}
    {k : HsmResult EntityState → Prog engineSig (HsmResult EntityState)}
    (h : u.Trusts s (.op (.storage (.commitArchive ctx view receipt)) k)) : u.backed s receipt := by
  obtain ⟨past, traces, told⟩ := h
  exact told receipt (Prog.traces_op.mp traces).1

end Trusts

end Upkeep

theorem Upkeep.Trusts.asked {u : Upkeep π env roots} {g : Imports} {c : StorageCall}
    {k : c.Ans → Prog engineSig (HsmResult EntityState)} {request : Request}
    (h : u.Trusts s (.op (.storage c) k)) (hc : c.request = some request) :
    u.Asked g s request := by
  constructor
  · rintro ctx view r rfl
    cases c with
    | commitArchive ctx view r =>
      cases hc
      exact h.attaches
    | _ => cases hc
  · rintro id bytes rfl
    cases c <;> cases hc

/-- The process acts. -/
theorem System.Kept.acts {u : Upkeep π env roots} {l l' : Live κ} {g : Imports}
    {begins done : List (String × Bytes)} {p : Prog (LocalSig κ) (Live κ × List (String × Bytes))}
    (hk : System.Kept u ⟨s, l, g⟩) (ha : Live.Acts roots (env.opens s) l begins p)
    (hr : Runs (fsMachine π) p s (l', done) s') :
    System.Kept u ⟨s', l', begins ++ g.begun, done ++ g.done⟩ := by
  obtain ⟨begun, sound⟩ := hk.vault
  obtain ⟨begun', steps⟩ := (ha.vault begun u.between hk.store.root_eq).1 _ _ _ hr
  obtain ⟨sound', carry⟩ := u.steps steps sound
  have store : Holding roots.storage (u.valid ⟨begins ++ g.begun, g.done⟩ s) s l.storage :=
    hk.store.mono fun _ => u.begins
  have vault : ∃ begun, u.sound ⟨s', l'.archive, begun⟩ := ⟨begun', sound'⟩
  have engines : ∀ p ∈ l.engines, u.Trusts s' p := fun p hp => (hk.engines p hp).carry carry
  have aside : ∀ {l' : Live κ}, Frame (Guarded roots.storage s) s s' → l'.storage = l.storage →
      (∃ begun, u.sound ⟨s', l'.archive, begun⟩) → (∀ p ∈ l'.engines, u.Trusts s' p) →
      System.Kept u ⟨s', l', begins ++ g.begun, g.done⟩ := fun hf hl vault he => by
    obtain ⟨hh, hs⟩ := u.holds_beside store hf carry
    exact ⟨vault, hl ▸ hh, fun hx hn => hs (hk.born hx hn), he⟩
  cases ha with
  | @imports _ self id bytes hs =>
    obtain ⟨⟨x, self'⟩, hx, he⟩ := hr.of_map
    cases he
    have asked : u.Asked ⟨[(id, bytes)] ++ g.begun, g.done⟩ s (.import id bytes) :=
      ⟨nofun, by rintro _ _ ⟨⟩; exact .head _⟩
    have hx := runs_replying (f := .value ∘ .state) hx
    obtain ⟨hh, hb, hd⟩ := u.holds_call (.import id bytes) (hs ▸ store) hx asked carry
    cases x with
    | error e => exact ⟨vault, hh, fun hx hn => hb (hk.born hx hn), engines⟩
    | ok x =>
      obtain ⟨hh, hb⟩ := hd id bytes _ rfl rfl
      exact ⟨vault, hh, fun _ _ => hb, engines⟩
  | @collects _ self hs =>
    obtain ⟨⟨x, self'⟩, hx, he⟩ := hr.of_map
    cases he
    have hx := runs_replying (f := .count) hx
    obtain ⟨hh, hb, -⟩ := u.holds_call (.collectGarbage) (hs ▸ store) hx ⟨nofun, nofun⟩ carry
    exact ⟨vault, hh, fun hx hn => hb (hk.born hx hn), engines⟩
  | begins c =>
    cases hr
    refine aside (.refl s) rfl vault fun p hp => ?_
    rcases List.mem_cons.mp hp with rfl | hp
    · exact .workflow c
    · exact engines p hp
  | @calls self archive c k before after =>
    obtain ⟨⟨x, t⟩, hx, he⟩ := hr.of_map
    cases he
    have trusts : u.Trusts s (.op c k) := hk.engines _ (by simp)
    have solid := u.solid sound
    obtain ⟨hroot, -⟩ := solid.handle archive rfl
    -- what this engine goes on with is the only thing that is new
    have others : (∀ (b : BackendCall) (y : b.Ans) r, (⟨c, x⟩ : Event engineSig) = ⟨.backend b, y⟩ →
        b.reports y = some r → u.backed s' r) →
        ∀ p ∈ before ++ k x :: after, u.Trusts s' p := by
      intro told p hp
      rcases List.mem_append.mp hp with hp | hp
      · exact engines p (List.mem_append_left _ hp)
      rcases List.mem_cons.mp hp with rfl | hp
      · exact trusts.answered carry told
      · exact engines p (List.mem_append_right _ (.tail _ hp))
    cases c with
    | storage c =>
      have others := others (by rintro _ _ _ ⟨⟩)
      rcases storageCall_runs hx with ⟨rfl, ⟨-, rfl, rfl⟩ | ⟨request, answer, hc, hx⟩⟩
      · exact aside (.refl _) rfl vault others
      · obtain ⟨hh, hb, -⟩ := u.holds_call _ store hx (trusts.asked hc) carry
        exact ⟨vault, hh, fun hx hn => hb (hk.born hx hn), others⟩
    | backend c =>
      obtain ⟨rfl, hb⟩ := backend_runs hx
      have moves := (LocalArchive.backendCall_runs hb).1
      refine aside ?_ rfl vault (others ?_)
      · have off := moves.off (hroot ▸ solid.stored)
        exact off.mono fun d n hg => ⟨hg.1, hroot ▸ @Roots.off roots.swap _ hg.2.1⟩
      · rintro b y r ⟨⟩ hr
        exact u.told sound hb hr
    | copy ctx source destination =>
      obtain ⟨rfl, hcopy, hc⟩ := copy_runs hx
      exact aside (hcopy.beside hc.tree).files rfl vault (others (by rintro _ _ _ ⟨⟩))
  | opensStorage hn =>
    obtain ⟨x, hx, he⟩ := hr.of_map
    cases he
    have new : ¬ Born roots.storage s → ∀ a b, u.valid ⟨[] ++ g.begun, g.done⟩ s (State.new a b) :=
      fun hn a b => u.new fun hx => by_contra fun hd => hn (hk.born hx hd)
    obtain ⟨hh, hb⟩ := u.opened store.cells new hx carry
    exact ⟨vault, hh, fun hx hn => hb (hk.born hx hn), engines⟩
  | opensArchive id ho hn =>
    obtain ⟨x, hx, he⟩ := hr.of_map
    cases he
    refine aside ?_ rfl vault engines
    have off := ((open_opening (u.solid sound).tree).2 _ _ hx).1.off
    exact off.mono fun d n hg => ⟨hg.1, @Roots.off roots.swap _ hg.2.1⟩

theorem System.Kept.dies {u : Upkeep π env roots} {l : Live κ} {g : Imports}
    {begins : List (String × Bytes)} {p : Prog (LocalSig κ) (Live κ × List (String × Bytes))}
    (hk : System.Kept u ⟨s, l, g⟩) (ha : Live.Acts roots (env.opens s) l begins p)
    (hc : Cuts (fsMachine π) p s s₁) (hx : env.crash s₁ s') :
    System.Kept u ⟨s', .dead, begins ++ g.begun, g.done⟩ := by
  obtain ⟨begun, sound⟩ := hk.vault
  obtain ⟨begun', steps⟩ := (ha.vault begun u.between hk.store.root_eq).2 _ _ hc hx
  obtain ⟨sound', carry⟩ := u.steps steps sound
  have store : Holding roots.storage (u.valid ⟨begins ++ g.begun, g.done⟩ s) s l.storage :=
    hk.store.mono fun _ => u.begins
  have ends : env.Ends s₁ s' := .inr hx
  have dead : Cells roots.storage (u.valid ⟨begins ++ g.begun, g.done⟩ s') s₁ ∧
      (Born roots.storage s → Born roots.storage s₁) →
      System.Kept u ⟨s', .dead, begins ++ g.begun, g.done⟩ := fun ⟨hh, hb⟩ =>
    ⟨⟨begun', sound'⟩, .closed (hh.crash u.gentle hx), fun h hn =>
      h _ _ hx (hb (hk.born h hn)), nofun⟩
  have aside : Frame (Guarded roots.storage s) s s₁ →
      System.Kept u ⟨s', .dead, begins ++ g.begun, g.done⟩ := fun hf =>
    dead ⟨u.cells_beside store.cells hf ends carry,
      fun hb => hb.frame hf ⟨fun h => h, List.suffix_refl _, nofun⟩⟩
  cases ha with
  | @imports _ self id bytes hs =>
    have hc := hc.of_map
    have asked : u.Asked ⟨[(id, bytes)] ++ g.begun, g.done⟩ s (.import id bytes) :=
      ⟨nofun, by rintro _ _ ⟨⟩; exact .head _⟩
    exact dead (u.cells_cut (.import id bytes) (hs ▸ store) hc.map asked ends carry)
  | @collects _ self hs =>
    have hc := hc.of_map
    exact dead (u.cells_cut (.collectGarbage) (hs ▸ store) hc.map ⟨nofun, nofun⟩ ends carry)
  | begins c =>
    cases hc
    exact aside (.refl s)
  | @calls self archive c k before after =>
    have hc := hc.of_map
    have trusts : u.Trusts s (.op c k) := hk.engines _ (by simp)
    have solid := u.solid sound
    obtain ⟨hroot, -⟩ := solid.handle archive rfl
    cases c with
    | storage c =>
      rcases storageCall_cuts hc with ⟨-, rfl⟩ | ⟨request, hr, hc⟩
      · exact aside (.refl _)
      · exact dead (u.cells_cut _ store hc (trusts.asked hr) ends carry)
    | backend c =>
      have moves := LocalArchive.backendCall_cuts (backend_cuts hc)
      have off := moves.off (hroot ▸ solid.stored)
      exact aside (off.mono fun d n hg => ⟨hg.1, hroot ▸ @Roots.off roots.swap _ hg.2.1⟩)
    | copy ctx source destination => exact aside ((copy_cuts hc).beside hc.tree).files
  | opensStorage hn =>
    have new : ¬ Born roots.storage s → ∀ a b, u.valid ⟨[] ++ g.begun, g.done⟩ s (State.new a b) :=
      fun hn a b => u.new fun hx => by_contra fun hd => hn (hk.born hx hd)
    exact dead (u.cells_open store.cells new hc.of_map ends carry)
  | opensArchive id ho hn =>
    have off := ((open_opening (u.solid sound).tree).1 _ hc.of_map).off
    exact aside (off.mono fun d n hg => ⟨hg.1, @Roots.off roots.swap _ hg.2.1⟩)

theorem System.Steps.kept {u : Upkeep π env roots} {sys sys' : System κ}
    (h : System.Steps π env roots sys sys') (hk : sys.Kept u) : sys'.Kept u := by
  induction h with
  | refl => exact hk
  | tail _ hs ih =>
    cases hs with
    | acts ha hr => exact ih.acts ha hr
    | dies ha hc hx => exact ih.dies ha hc hx

/-- What holds of an archive without files holds in every reachable state. -/
theorem System.Reachable.kept {sys : System κ} (h : System.Reachable π env roots sys)
    (u : Upkeep π env roots)
    (bare : ∀ s, Bare roots.archive s → u.sound ⟨s, none, []⟩) : sys.Kept u := by
  obtain ⟨s, hb, ⟨hl, hs⟩, steps⟩ := h
  refine steps.kept ⟨⟨[], bare s hb⟩, .closed ⟨?_, ?_⟩, fun _ h => (h rfl).elim, nofun⟩
  · rw [hl]
    exact .none
  · rw [hs]
    exact .none

end HsmRs
