import HsmRs.Archive.Attempts
import HsmRs.System.Errand
import HsmRs.System.Preserved

/-! # What open stores rest on

In every reachable state the open archive has its directories and its identity, the open
storage has a place for layouts, and every version of the metadata is in order. On a handle
that is not poisoned both stores serve.
-/

namespace HsmRs

section

variable {κ : Type} {s s' : Disk (FileName κ) (Content κ)} {root : Dir} {st next : State κ}

/-! ## The archive -/

/-- An archive of this identity is there, with its directories. -/
structure Seated (root : Dir) (id : String) (s : Disk (FileName κ) (Content κ)) : Prop where
  named : id ≠ ""
  objects : s.Grounded (objectsDir root)
  attempts : s.Grounded (attemptsDir root)
  identity : s.Safe root .backendId (.text id)

theorem Seated.onward {id : String} (h : Seated root id s) (ho : Onward root s s') :
    Seated root id s' :=
  ⟨h.named, ho.grounded _ (List.suffix_cons _ _) h.objects,
    ho.grounded _ (List.suffix_cons _ _) h.attempts, ho.kept _ _ _ (.inr ⟨rfl, rfl⟩) h.identity⟩

def Vault.Seats (root : Dir) (v : Vault κ) : Prop :=
  ∀ a, v.handle = some a → Seated root a.id v.disk

variable [DecidableEq κ] [KeyHash κ] [Crates] {π : Policy (FileName κ) (Content κ)}

theorem Vault.Step.seats {v v' : Vault κ} (h : Step π (.mortal root) root v v')
    (hv : v.Solid root) (hs : v.Seats root) : v'.Seats root := by
  have course := h.course Setting.mortal_gentle hv
  cases h with
  | @opened a s s' begun id _ hr =>
    obtain ⟨hw, hok⟩ := (open_opening hv.tree).2 _ _ hr
    obtain ⟨rfl, ho, -⟩ := hok a rfl
    rintro _ ⟨⟩
    obtain ⟨x, hx⟩ := ho.identity
    obtain rfl : x = true := (hv.stored.opening hw).identity _ (.inl hx)
    exact ⟨ho.named, ho.objects, ho.attempts, ho.settled.safe hx⟩
  | @call a s s' begun c x hr =>
    obtain ⟨rfl, -⟩ := hv.handle a rfl
    exact fun a' ha => (hs a' ha).onward (.of_moves (LocalArchive.backendCall_runs hr).1)
  | between hb => exact fun a ha => (hs a ha).onward (.of_beside hb)
  | crash => exact nofun
  | refused => exact nofun
  | cut => exact nofun
  | died => exact nofun

omit [DecidableEq κ] [KeyHash κ] [Crates] in
theorem Setting.mortal_calm : (Setting.mortal root : Setting κ).Calm := fun _ _ h => h

/-- The archive with its place and its catalog. -/
structure Vault.Orderly (root : Dir) (v : Vault κ) : Prop where
  solid : v.Solid root
  seats : v.Seats root
  sound : v.Sound root

def Custody.seated (π : Policy (FileName κ) (Content κ)) (root : Dir) :
    Custody π (.mortal root) root where
  sound v := v.Orderly root
  backed s r := ∃ u b, Enduring root r u b s
  gentle := Setting.mortal_gentle
  solid h := h.solid
  between h := h
  step hv h := by
    obtain ⟨solid, carry⟩ := (Custody.mortal π root).step hv.solid h
    have loose := h.loose Setting.mortal_gentle Setting.mortal_calm
    exact ⟨⟨solid, h.seats hv.solid hv.seats, (loose.sound hv.sound).1⟩, carry⟩
  told hv hr hx := (Custody.mortal π root).told hv.solid hr hx

/-! ## The metadata -/

/-- The step that has taken a protection is recorded. -/
structure State.Accounted (st : State κ) : Prop where
  view : ∀ v o, st.views.lookup v = some o →
    st.steps.lookup (key (.step o.context .prepareArchive)) ≠ none
  «recall» : ∀ l o, st.recalls.lookup l = some o →
    st.steps.lookup (key (.step o.context .prepareRecall)) ≠ none

omit [Crates] in
theorem State.Accounted.record (h : st.Accounted) {k : κ} {saved : SavedStep κ} :
    (st.record k saved).Accounted :=
  ⟨fun v o ho => lookup_record_ne_none (h.view v o ho),
    fun l o ho => lookup_record_ne_none (h.recall l o ho)⟩

theorem State.Accounted.closed : Closed root (State.Accounted : State κ → Prop) := by
  intro fresh st request answer next h hs
  cases hs with
  | failed => exact h.record
  | @done ctx request value next _ _ he =>
    cases he with
    | prepareArchive =>
      refine ⟨fun v o ho => ?_, h.record.recall⟩
      simp only [State.record, Table.lookup_insert] at ho
      split at ho
      · cases ho
        simp [State.record, StepRequest.name]
      · exact lookup_record_ne_none (h.view v o ho)
    | commitArchive =>
      refine ⟨fun v o ho => ?_, h.record.recall⟩
      simp only [State.record, Table.lookup_erase] at ho
      split at ho
      · cases ho
      · exact lookup_record_ne_none (h.view v o ho)
    | release => exact ⟨h.record.view, h.record.recall⟩
    | prepareRecall =>
      refine ⟨h.record.view, fun l o ho => ?_⟩
      simp only [State.record, Table.lookup_insert] at ho
      split at ho
      · cases ho
        simp [State.record, StepRequest.name]
      · exact lookup_record_ne_none (h.recall l o ho)
    | commitRecall =>
      refine ⟨h.record.view, fun l o ho => ?_⟩
      simp only [State.record, Table.lookup_erase] at ho
      split at ho
      · cases ho
      · exact lookup_record_ne_none (h.recall l o ho)
  | imported => exact ⟨h.view, h.recall⟩
  | collected => exact ⟨h.view, h.recall⟩

structure State.Orderly (root : Dir) (st : State κ) : Prop where
  coherent : st.Coherent root
  historic : st.Historic
  attested : Attested st.entities
  accounted : st.Accounted
  schema : st.schema = 1

theorem State.Orderly.closed : Closed root (State.Orderly root : State κ → Prop) := by
  intro fresh st request answer next h hs
  obtain ⟨coherent, historic⟩ :=
    State.Historic.closed _ _ _ _ _ ⟨h.coherent, h.historic⟩ hs
  exact ⟨coherent, historic, State.attested_closed _ _ _ _ _ h.attested hs,
    State.Accounted.closed _ _ _ _ _ h.accounted hs, State.schema_closed _ _ _ _ _ h.schema hs⟩

theorem State.Orderly.new {a b : String} : (State.new a b : State κ).Orderly root :=
  ⟨.new, .new, fun id e hl => by simp [State.new] at hl,
    ⟨fun v o ho => by simp [State.new] at ho, fun l o ho => by simp [State.new] at ho⟩, rfl⟩

/-! ## Whole runs -/

variable {env : Setting κ} {roots : Roots} {sys sys' : System κ} {P : State κ → Prop}

/-- What all calls keep is kept along with the rest. -/
def Upkeep.along (u : Upkeep π env roots) (closed : Closed roots.storage P)
    (new : ∀ a b, P (State.new a b)) : Upkeep π env roots where
  toCustody := u.toCustody
  valid g s st := u.valid g s st ∧ P st
  begins h := ⟨u.begins h.1, h.2⟩
  new hd := ⟨u.new hd, new _ _⟩
  still hf he carry h := ⟨u.still hf he carry h.1, h.2⟩
  kept hl issued he carry h := ⟨u.kept hl issued he carry h.1, h.2⟩
  moved hs attached begun hl issued he carry h :=
    ⟨u.moved hs attached begun hl issued he carry h.1, closed _ _ _ _ _ h.2 hs⟩
  imported hs h := ⟨u.imported hs h.1, h.2⟩

theorem System.Step.carry {u : Upkeep π env roots} (h : System.Step π env roots sys sys')
    (hk : sys.Kept u) {r : ArchiveReceipt} (hr : u.backed sys.disk r) : u.backed sys'.disk r := by
  obtain ⟨begun, sound⟩ := hk.vault
  cases h with
  | acts ha hx =>
    obtain ⟨begun', steps⟩ := (ha.vault begun u.between hk.store.root_eq).1 _ _ _ hx
    exact (u.steps steps sound).2 r hr
  | dies ha hc hx =>
    obtain ⟨begun', steps⟩ := (ha.vault begun u.between hk.store.root_eq).2 _ _ hc hx
    exact (u.steps steps sound).2 r hr

/-- Content is preserved, the metadata are in order and the open archive has its place. -/
def upkeep (π : Policy (FileName κ) (Content κ)) (roots : Roots) (hπ : π.Fresh) :
    Upkeep π (.mortal roots.archive) roots :=
  (preservation (.seated π roots.archive) Setting.mortal_mild hπ).along
    (P := State.Orderly roots.storage) State.Orderly.closed fun _ _ => .new

/-- What is kept does not depend on what has been the case with the operations. -/
theorem System.Kept.turn {π₀ : Policy (FileName κ) (Content κ)} {hπ₀ : π₀.Fresh}
    (h : sys.Kept (upkeep π₀ roots hπ₀)) (hπ : π.Fresh) : sys.Kept (upkeep π roots hπ) :=
  ⟨h.vault, h.store, h.born, h.engines⟩

theorem System.Reachable.upkept (h : System.Reachable π (.mortal roots.archive) roots sys)
    (hπ : π.Fresh) : sys.Kept (upkeep π roots hπ) :=
  h.kept (upkeep π roots hπ) fun _ hb =>
    ⟨Vault.Bare.solid hb, nofun, .new (Vault.Bare.blank hb)⟩

/-- What the archive has on record it keeps. -/
theorem System.Step.grows {hπ : π.Fresh} (h : System.Step π (.mortal roots.archive) roots sys sys')
    (hk : sys.Kept (upkeep π roots hπ)) :
    LocalArchive.Grows roots.archive sys.disk sys'.disk := by
  obtain ⟨begun, sound⟩ := hk.vault
  have grows : ∀ {v v' : Vault κ}, Vault.Steps π (.mortal roots.archive) roots.archive v v' →
      v.Sound roots.archive → LocalArchive.Grows roots.archive v.disk v'.disk := fun hs hv =>
    (Vault.Steps.sound (Relation.ReflTransGen.mono (fun _ _ h =>
      Vault.Step.loose Setting.mortal_gentle Setting.mortal_calm h) _ _ hs) hv).2
  cases h with
  | acts ha hx =>
    obtain ⟨begun', steps⟩ := (ha.vault begun id hk.store.root_eq).1 _ _ _ hx
    exact grows steps sound.sound
  | dies ha hc hx =>
    obtain ⟨begun', steps⟩ := (ha.vault begun id hk.store.root_eq).2 _ _ hc hx
    exact grows steps sound.sound

/-- An open storage has a place for layouts. -/
def System.Roomy (roots : Roots) (sys : System κ) : Prop :=
  ∀ self, sys.live.storage = some self → sys.disk.dir (layoutsDir roots.storage) = true

def Layouts (root : Dir) (d : Dir) (n : FileName κ) : Prop := Named d n ∧ d = layoutsDir root

omit [DecidableEq κ] [KeyHash κ] [Crates] in
theorem LocalStorage.distant_layouts :
    Distant root (Layouts root : Dir → FileName κ → Prop) where
  named _ _ h := h.1
  state h := by
    have := congrArg List.length h.2
    simp [layoutsDir] at this
  layouts := by
    rintro layout _ n ⟨-, rfl⟩ h
    have := h.length_le
    simp only [layoutDir, List.length_cons] at this
    omega

omit [KeyHash κ] [Crates] in
theorem LocalStorage.open_roomy {self : LocalStorage κ} (tree : s.Tree)
    (h : Runs (fsMachine π) (LocalStorage.open root : Io κ _).run s (.ok self) s') :
    s'.dir (layoutsDir root) = true := by
  have hw : (LocalStorage.open root : Io κ _).run.wp (fsMachine π) (fun _ => True)
      (fun r s' => ∀ self, r = .ok self → s'.dir (layoutsDir root) = true) s := by
    unfold LocalStorage.open
    apply Prog.wp_run_bind_of
    refine wp_lockRoot tree (fun _ _ => trivial) (fun s₁ _ t₁ hr _ _ => ?_)
      fun _ _ _ _ _ => nofun
    rw [Prog.run_mk, Prog.wp_bind]
    have loads : (LocalStorage.load root : Io κ _).run.wp (fsMachine π) (fun _ => True)
        (fun r s' => ∀ self, r = .ok self → s'.dir (layoutsDir root) = true) s₁ := by
      unfold LocalStorage.load
      apply Prog.wp_run_bind_of
      refine wp_createDirAll t₁ (fun _ _ => trivial) (fun s₂ _ _ hd _ => ?_)
        fun _ _ _ _ _ _ => nofun
      have there := hd (t₁.suffix hr List.nil_suffix)
      refine Prog.wp_frame (K := Layouts root) ?_ (fun _ _ => trivial)
        fun _ s' _ hf _ _ => hf.dir _ .data ⟨id, rfl⟩ there
      exact Prog.within_bind (within_io.mpr trivial) fun _ =>
        Prog.within_bind (LocalStorage.spares_readState (fun _ _ h => h.1)
          LocalStorage.distant_layouts.state) fun _ => Prog.within_guard trivial
    refine Prog.wp_mono loads (fun _ _ => trivial) ?_
    rintro (e | self) s' - hd
    · exact ⟨trivial, fun _ _ => trivial, fun _ _ _ => ⟨trivial, nofun⟩⟩
    · exact ⟨trivial, fun _ _ => hd self rfl⟩
  exact Prog.wp_sound_runs hw h self rfl

theorem System.Step.roomy {u : Upkeep π env roots} (h : System.Step π env roots sys sys')
    (hk : sys.Kept u) (hr : sys.Roomy roots) : sys'.Roomy roots := by
  obtain ⟨begun, sound⟩ := hk.vault
  have solid := u.solid sound
  cases h with
  | dies => exact nofun
  | @acts s s' l l' g begins done p ha runs =>
    have root_eq := hk.store.root_eq
    have stays : ∀ {K : Dir → FileName κ → Prop}, Frame K s s' →
        K (layoutsDir roots.storage) .backendId → ∀ self, l.storage = some self →
        s'.dir (layoutsDir roots.storage) = true := fun hf hk self hs =>
      hf.dir _ _ hk (hr self hs)
    have calls : ∀ {α : Type} {self : LocalStorage κ} {q : Prog (LocalSig κ) α} {x : α},
        l.storage = some self → (LocalStorage.Distant self.root
          (Layouts roots.storage : Dir → FileName κ → Prop) →
          q.Within (FsOp.Spares (Layouts roots.storage))) →
        Runs (fsMachine π) q s x s' → s'.dir (layoutsDir roots.storage) = true :=
      fun {_ self _ _} hs hq hx => stays
        (hx.frame (hq (root_eq self hs ▸ LocalStorage.distant_layouts))) ⟨id, rfl⟩ self hs
    cases ha with
    | imports id bytes hs =>
      obtain ⟨x, hx, he⟩ := runs.of_map
      cases he
      exact fun _ _ => calls hs LocalStorage.spares_import hx
    | collects hs =>
      obtain ⟨x, hx, he⟩ := runs.of_map
      cases he
      exact fun _ _ => calls hs LocalStorage.spares_collectGarbage hx
    | begins =>
      cases runs
      exact hr
    | @calls self archive c k before after =>
      obtain ⟨⟨x, t⟩, hx, he⟩ := runs.of_map
      cases he
      obtain ⟨hroot, -⟩ := solid.handle archive rfl
      cases c with
      | storage c => exact fun _ _ => calls rfl LocalStorage.Distant.storageCall hx
      | backend c =>
        obtain ⟨rfl, hb⟩ := backend_runs hx
        have off := (LocalArchive.backendCall_runs hb).1.off (hroot ▸ solid.stored)
        exact fun _ _ => stays off ⟨id, hroot ▸ @Roots.off roots.swap _ (List.suffix_cons _ _)⟩
          self rfl
      | copy ctx source destination =>
        obtain ⟨rfl, hcopy, hc⟩ := copy_runs hx
        have guarded : Guarded roots.storage s (layoutsDir roots.storage) .backendId :=
          ⟨id, List.suffix_cons _ _, fun h => by cases h⟩
        exact fun _ _ => stays (hcopy.beside hc.tree).files guarded self rfl
    | opensStorage hn =>
      obtain ⟨x, hx, he⟩ := runs.of_map
      cases he
      rintro self ho
      cases x with
      | error e => cases ho
      | ok self' => exact LocalStorage.open_roomy solid.tree hx
    | opensArchive _ ho hn =>
      obtain ⟨x, hx, he⟩ := runs.of_map
      cases he
      have off := ((open_opening solid.tree).2 _ _ hx).1.off
      exact fun self hs => stays off ⟨id, @Roots.off roots.swap _ (List.suffix_cons _ _)⟩ self hs

theorem System.Reachable.roomy (h : System.Reachable π (.mortal roots.archive) roots sys)
    (hπ : π.Fresh) : sys.Roomy roots := by
  obtain ⟨s, hb, hs, steps⟩ := h
  induction steps with
  | refl => exact nofun
  | tail before step ih =>
    exact step.roomy (System.Reachable.upkept ⟨s, hb, hs, before⟩ hπ) ih

/-! ## Both stores -/

/-- With both stores open and the storage healthy, both serve. -/
theorem System.Kept.serving {hπ : π.Fresh} (hk : sys.Kept (upkeep π roots hπ))
    (roomy : sys.Roomy roots) {self : LocalStorage κ} {archive : LocalArchive}
    (hs : sys.live.storage = some self) (ha : sys.live.archive = some archive)
    (healthy : self.poisoned = false) (idle : ∀ d, sys.disk.locked d .transferLock = false) :
    Stores.Serving roots ⟨self, archive⟩ sys.disk := by
  obtain ⟨begun, solid, seats, -⟩ := hk.vault
  obtain ⟨hroot, -⟩ := solid.handle archive ha
  have seated := seats archive ha
  have hr := hk.store.root_eq self hs
  have safe := hk.store.safe self hs healthy
  have there : sys.disk.dir roots.storage = true :=
    Disk.dir_of_lookup (n := .state) (by simp [safe.1])
  exact
    { storage := ⟨healthy, hr ▸ safe, hr ▸ roomy self hs, idle⟩
      archive := ⟨hroot ▸ seated.objects.1, hroot ▸ seated.attempts.1, idle⟩
      root := hr
      root' := hroot
      schema := (hk.store.cached self hs).2.schema
      top := solid.tree.suffix there List.nil_suffix
      identity := ⟨true, hroot ▸ seated.identity.1⟩ }

end

end HsmRs
