import HsmRs.Lib.Crash
import HsmRs.Storage.Calls

/-! # Runs of local storage

One root, at most one open handle, and everything that can happen to them: calls,
crashes in the middle of calls, opening again, and changes of the disk outside the
metadata file. What every change of the metadata preserves holds of the cached
metadata and of both versions on disk.
-/

namespace HsmRs

variable {κ : Type} {root : Dir} {s s' : Disk (FileName κ) (Content κ)} {st : State κ}
  {P P' : State κ → Prop}

/-- If there is a metadata file, it holds synced metadata that satisfy `P`. -/
def Held (P : State κ → Prop) (o : Option (File (Content κ))) : Prop :=
  ∀ f, o = some f → ∃ st, f = ⟨.state st, true⟩ ∧ P st

/-- Both versions of the metadata file satisfy `P`. -/
def Cells (root : Dir) (P : State κ → Prop) (s : Disk (FileName κ) (Content κ)) : Prop :=
  Held P (s.lookup root .state) ∧ Held P (s.safeFile root .state)

/-- Both versions of the metadata file exist. -/
def Born (root : Dir) (s : Disk (FileName κ) (Content κ)) : Prop :=
  s.lookup root .state ≠ none ∧ s.safeFile root .state ≠ none

namespace Held

theorem upgrade {a b : Option (File (Content κ))} (h : Held P a) (hu : Upgrade a b) :
    Held P b := by
  intro f hf
  subst hf
  obtain ⟨g, rfl, -, -⟩ := hu.some_right
  obtain ⟨st, rfl, hp⟩ := h g rfl
  have := hu.synced
  exact ⟨st, Option.some.inj this, hp⟩

theorem survives {a b : Option (File (Content κ))} (h : Held P a) (hu : Survives a b) :
    Held P b := by
  intro f hf
  subst hf
  cases a with
  | none => exact hu.elim
  | some g =>
    obtain ⟨st, rfl, hp⟩ := h g rfl
    exact ⟨st, Option.some.inj hu.synced, hp⟩

theorem mono {a : Option (File (Content κ))} (h : Held P a) (hp : ∀ st, P st → P' st) :
    Held P' a := by
  intro f hf
  obtain ⟨st, rfl, h'⟩ := h f hf
  exact ⟨st, rfl, hp st h'⟩

theorem none : Held P none := fun _ h => by cases h

theorem some {st : State κ} (h : P st) : Held P (some ⟨.state st, true⟩) := by
  rintro f ⟨⟩
  exact ⟨st, rfl, h⟩

end Held

namespace Cells

theorem mono (h : Cells root P s) (hp : ∀ st, P st → P' st) : Cells root P' s :=
  ⟨h.1.mono hp, h.2.mono hp⟩

theorem frame {K : Dir → FileName κ → Prop} (h : Cells root P s) (hf : Frame K s s')
    (hk : K root .state) : Cells root P s' := by
  refine ⟨h.1.upgrade (hf.now _ _ hk), ?_⟩
  rcases hf.safe _ _ hk with he | hu
  · rw [he]
    exact h.2
  · exact h.1.upgrade hu

theorem placed {st : State κ} (h : Cells root P s) (hp : Placed root .state (.state st) s s')
    (hst : P st) : Cells root P s' := by
  refine ⟨?_, ?_⟩
  · rw [hp.now]
    exact .some hst
  · rcases hp.safe with he | hu | he
    · rw [he]
      exact h.2
    · exact h.1.upgrade hu
    · rw [he]
      exact .some hst

theorem of_safe {st : State κ} (h : s.Safe root .state (.state st)) (hst : P st) :
    Cells root P s := by
  refine ⟨?_, ?_⟩
  · rw [h.1]
    exact .some hst
  · rw [h.2]
    exact .some hst

theorem between {st st' : State κ} (h : Between root s st st') (hst : P st) (hst' : P st') :
    Cells root P s := by
  refine ⟨?_, ?_⟩
  · rcases h.1 with he | he <;> rw [he]
    · exact .some hst
    · exact .some hst'
  · rcases h.2 with he | he <;> rw [he]
    · exact .some hst
    · exact .some hst'

theorem read (h : Cells root P s) {f : File (Content κ)} (hf : s.lookup root .state = .some f) :
    ∃ st, f = ⟨.state st, true⟩ ∧ P st := h.1 f hf

end Cells

namespace Born

theorem frame {K : Dir → FileName κ → Prop} (h : Born root s) (hf : Frame K s s')
    (hk : K root .state) : Born root s' := by
  have hn := hf.now _ _ hk
  refine ⟨fun he => h.1 ?_, fun he => ?_⟩
  · rw [he] at hn
    exact hn.none_right
  · rcases hf.safe _ _ hk with h' | hu
    · exact h.2 (h'.symm.trans he)
    · rw [he] at hu
      exact h.1 hu.none_right

theorem of_safe {st : State κ} (h : s.Safe root .state (.state st)) : Born root s := by
  simp [Born, h.1, h.2]

theorem of_between {st st' : State κ} (h : Between root s st st') : Born root s := by
  refine ⟨?_, ?_⟩
  · rcases h.1 with he | he <;> simp [he]
  · rcases h.2 with he | he <;> simp [he]

end Born

/-! ## Opening -/

/-- The metadata file is kept in order: both versions satisfy `P` and none is lost. -/
def Keeping (root : Dir) (P : State κ → Prop) (s s' : Disk (FileName κ) (Content κ)) : Prop :=
  Cells root P s' ∧ (Born root s → Born root s')

def Opened (root : Dir) (P : State κ → Prop) (self : LocalStorage κ)
    (s : Disk (FileName κ) (Content κ)) : Prop :=
  self.root = root ∧ self.poisoned = false ∧ P self.state ∧
    s.Safe root .state (.state self.state)

namespace Keeping

variable {s'' : Disk (FileName κ) (Content κ)}

theorem frame {K : Dir → FileName κ → Prop} (h : Keeping root P s s') (hf : Frame K s' s'')
    (hk : K root .state) : Keeping root P s s'' :=
  ⟨h.1.frame hf hk, fun hb => (h.2 hb).frame hf hk⟩

theorem placed {st : State κ} (h : Keeping root P s s')
    (hp : Placed root .state (.state st) s' s'') (hst : P st) : Keeping root P s s'' := by
  refine ⟨h.1.placed hp hst, fun hb => ⟨by simp [hp.now], fun he => ?_⟩⟩
  have hb' := h.2 hb
  rcases hp.safe with h' | hu | h'
  · exact hb'.2 (h'.symm.trans he)
  · rw [he] at hu
    exact hb'.1 hu.none_right
  · rw [he] at h'
    cases h'

end Keeping

section

variable [DecidableEq κ] {π : Env (FileName κ) (Content κ)} {s₀ : Disk (FileName κ) (Content κ)}

theorem wp_readState (h : Keeping root P s₀ s)
    (new : π.statFaults = true ∨ s.lookup root .state = none → ∀ a b, P (State.new a b))
    (synced : s.safeFile root .state = s.lookup root .state) :
    (LocalStorage.readState root : Io κ _).run.wp π.machine (Keeping root P s₀)
      (fun r s' => Keeping root P s₀ s' ∧ ∀ st, r = .ok st → P st ∧ s'.Safe root .state (.state st))
      s := by
  have kept : ∀ {s'}, Frame Named s s' → Keeping root P s₀ s' := fun hf => h.frame hf id
  unfold LocalStorage.readState
  apply Prog.wp_run_bind_of
  refine wp_ask h (fun s' ht => kept (ht.frame trivial)) fun there s₁ h₁ => ?_
  obtain ⟨seen, rfl⟩ := h₁.existsFile_or
  cases there with
  | true =>
    obtain ⟨f, hl⟩ := Option.isSome_iff_exists.mp (seen.resolve_right nofun).symm
    obtain ⟨st, rfl, hst⟩ := h.1.read hl
    apply Prog.wp_run_bind_of
    refine wp_io h (fun s' ht => kept (ht.frame trivial)) ?_
    rintro (e | c) s₂ h₂
    · exact ⟨kept (h₂.frame trivial), by simp⟩
    · obtain ⟨f, hf, rfl, rfl⟩ := h₂.read_ok
      rw [hl] at hf
      cases hf
      refine ⟨h, h, fun st' he => ?_⟩
      cases he
      exact ⟨hst, hl, synced.trans hl⟩
  | false =>
    have new := new (seen.symm.imp And.left fun hn => by simpa using hn.symm)
    apply Prog.wp_run_bind_of
    refine wp_ask h (fun s' ht => kept (ht.frame trivial)) fun a s₂ h₂ => ?_
    have f₂ : Frame Named s₁ s₂ := h₂.frame trivial
    apply Prog.wp_run_bind_of
    refine wp_ask (kept f₂) (fun s' ht => kept (f₂.trans (ht.frame trivial))) fun b s₃ h₃ => ?_
    have f₃ : Frame Named s₁ s₃ := f₂.trans (h₃.frame trivial)
    have onto : ∀ s', Frame Named s₃ s' ∨ Placed root .state (.state (State.new a b)) s₃ s' →
        Keeping root P s₀ s' := by
      rintro s' (hf | hp)
      · exact kept (f₃.trans hf)
      · exact (kept f₃).placed hp (new a b)
    apply Prog.wp_run_bind_of
    refine wp_writeJson id onto (fun s' hp hs _ => ?_) fun e s' _ h' _ => ?_
    · have hk := onto s' (.inr hp)
      refine ⟨hk, hk, fun st he => ?_⟩
      cases he
      exact ⟨new a b, hs⟩
    · exact ⟨onto s' h', by simp⟩

theorem wp_load (h : Keeping root P s₀ s)
    (new : π.statFaults = true ∨ s.lookup root .state = none → ∀ a b, P (State.new a b)) :
    (LocalStorage.load root : Io κ _).run.wp π.machine (Keeping root P s₀)
      (fun r s' => Keeping root P s₀ s' ∧ ∀ self, r = .ok self → Opened root P self s') s := by
  have kept : ∀ {s'}, Frame Named s s' → Keeping root P s₀ s' := fun hf => h.frame hf id
  unfold LocalStorage.load
  apply Prog.wp_run_bind_of
  refine Prog.wp_frame spares_createDirAll (fun s' hf => kept hf) fun r s₁ _ f₁ => ?_
  rcases r with e | ⟨⟩
  · exact ⟨kept f₁, by simp⟩
  apply Prog.wp_run_bind_of
  refine wp_io (kept f₁) (fun s' ht => kept (f₁.trans (ht.frame trivial))) ?_
  rintro (e | ⟨⟩) s₂ h₂
  · exact ⟨kept (f₁.trans (h₂.frame trivial)), by simp⟩
  have f₂ : Frame Named s s₂ := f₁.trans (h₂.frame trivial)
  obtain ⟨-, hs⟩ := h₂.syncDir_ok
  have synced : s₂.safeFile root .state = s₂.lookup root .state := by
    rw [hs, Disk.lookup_flush]
    simp [Disk.flush]
  apply Prog.wp_run_bind_of
  refine Prog.wp_mono (wp_readState (kept f₂) (fun hn => new (hn.imp_right fun hn => ?_)) synced)
    (fun _ hc => hc) ?_
  · have := f₂.now root .state id
    rw [hn] at this
    exact this.none_right
  rintro (e | st) s₃ hc ⟨hk, hst⟩
  · exact ⟨hk, by simp⟩
  obtain ⟨hp, hs⟩ := hst st rfl
  dsimp only
  split
  · exact ⟨hc, hk, by simp⟩
  · refine ⟨hc, hk, fun self he => ?_⟩
    cases he
    exact ⟨rfl, rfl, hp, hs⟩

theorem wp_open (h : Cells root P s)
    (new : π.statFaults = true ∨ s.lookup root .state = none → ∀ a b, P (State.new a b)) :
    (LocalStorage.open root : Io κ _).run.wp π.machine (Keeping root P s)
      (fun r s' => Keeping root P s s' ∧ ∀ self, r = .ok self → Opened root P self s') s := by
  have h₀ : Keeping root P s s := ⟨h, id⟩
  have kept : ∀ {s'}, Frame Named s s' → Keeping root P s s' := fun hf => h₀.frame hf id
  unfold LocalStorage.open
  apply Prog.wp_run_bind_of
  refine Prog.wp_frame spares_lockRoot (fun s' hf => kept hf) fun r s₁ _ f₁ => ?_
  rcases r with e | ⟨⟩
  · exact ⟨kept f₁, by simp⟩
  rw [Prog.run_mk, Prog.wp_bind]
  refine Prog.wp_mono (wp_load (kept f₁) fun hn => new (hn.imp_right fun hn => ?_))
    (fun _ hc => hc) ?_
  · have := f₁.now root .state id
    rw [hn] at this
    exact this.none_right
  rintro (e | self) s₂ hc ⟨hk, ho⟩
  · refine ⟨hk, fun s' ht => hk.frame (K := Named) (ht.frame trivial) id, fun x s' hs => ?_⟩
    have hk' := hk.frame (K := Named) (hs.frame trivial) id
    exact ⟨hk', hk', by simp⟩
  · exact ⟨hk, hk, ho⟩

end

/-! ## The world of one store -/

structure World (κ : Type) where
  disk : Disk (FileName κ) (Content κ)
  handle : Option (LocalStorage κ)

/-- The process dies, and its disk with it or not; the root directory itself stays. -/
inductive Crash (root : Dir) (s : Disk (FileName κ) (Content κ)) :
    Disk (FileName κ) (Content κ) → Prop where
  | process : Crash root s s.reboot
  | power {s' : Disk (FileName κ) (Content κ)} : s.PowerLoss s' →
      (s.dir root = true → s'.dir root = true) → Crash root s s'

/-- The disk changes anywhere but in the metadata file, which may get synced; names that were
handed out stay on record. -/
structure Outside (root : Dir) (s s' : Disk (FileName κ) (Content κ)) : Prop where
  now : Upgrade (s.lookup root .state) (s'.lookup root .state)
  safe : s'.safeFile root .state = s.safeFile root .state ∨
    Upgrade (s.lookup root .state) (s'.safeFile root .state)
  issued : ∀ u, s.issued u = true → s'.issued u = true

section

variable [DecidableEq κ] [KeyHash κ] [Crates]

/-- Everything that can happen to a store: a call, a crash in a call, an open that goes
well, one that fails, one that crashes, and whatever others do to the rest of the disk. -/
inductive World.Step (π : Env (FileName κ) (Content κ)) (root : Dir) : World κ →
    World κ → Prop where
  | call {self self' : LocalStorage κ} {s s' : Disk (FileName κ) (Content κ)}
      {request : Request} {answer : HsmResult Reply} :
      Runs π.machine (self.perform request) s (answer, self') s' →
      Step π root ⟨s, some self⟩ ⟨s', some self'⟩
  | crash {self : LocalStorage κ} {s s' s'' : Disk (FileName κ) (Content κ)} {request : Request} :
      Cuts π.machine (self.perform request) s s' → Crash root s' s'' →
      Step π root ⟨s, some self⟩ ⟨s'', none⟩
  | opened {self : LocalStorage κ} {s s' : Disk (FileName κ) (Content κ)} :
      Runs π.machine (LocalStorage.open root).run s (.ok self) s' →
      Step π root ⟨s, none⟩ ⟨s', some self⟩
  | refused {e : HsmError} {s s' : Disk (FileName κ) (Content κ)} :
      Runs π.machine (LocalStorage.open root : Io κ _).run s (.error e) s' →
      Step π root ⟨s, none⟩ ⟨s', none⟩
  | cut {s s' s'' : Disk (FileName κ) (Content κ)} :
      Cuts π.machine (LocalStorage.open root : Io κ _).run s s' → Crash root s' s'' →
      Step π root ⟨s, none⟩ ⟨s'', none⟩
  | outside {handle : Option (LocalStorage κ)} {s s' : Disk (FileName κ) (Content κ)} :
      Outside root s s' → Step π root ⟨s, handle⟩ ⟨s', handle⟩

abbrev World.Steps (π : Env (FileName κ) (Content κ)) (root : Dir) :
    World κ → World κ → Prop := Relation.ReflTransGen (World.Step π root)

/-- A world reached from a root without metadata. -/
def World.Reachable (π : Env (FileName κ) (Content κ)) (root : Dir) (w : World κ) : Prop :=
  ∃ s, s.lookup root .state = none ∧ s.safeFile root .state = none ∧
    World.Steps π root ⟨s, none⟩ w

def Next (root : Dir) (fresh : String → Prop) (st next : State κ) : Prop :=
  next = st ∨ ∃ request answer, Settles root fresh st request answer (some next)

/-- Calls keep `P`, which may speak of the names that have been handed out. -/
structure Stable (π : Policy (FileName κ) (Content κ)) (root : Dir)
    (P : (String → Bool) → State κ → Prop) : Prop where
  mono : ∀ {i i' st}, (∀ u, i u = true → i' u = true) → P i st → P i' st
  call : ∀ {i i' st request answer next}, (∀ u, i u = true → i' u = true) → P i st →
    Settles root (Given π i i') st request answer (some next) → P i' next

/-- Calls keep `P`, whatever names they are given. -/
def Closed (root : Dir) (P : State κ → Prop) : Prop :=
  ∀ fresh st request answer next, P st → Settles root fresh st request answer (some next) → P next

/-- All versions of the metadata satisfy `P`, and the cached one is that on disk unless the
handle is poisoned, when the disk may be one call ahead. -/
structure World.Keeps (π : Policy (FileName κ) (Content κ)) (root : Dir)
    (P : (String → Bool) → State κ → Prop) (w : World κ) : Prop where
  cells : Cells root (P w.disk.issued) w.disk
  root_eq : ∀ self, w.handle = some self → self.root = root
  cached : ∀ self, w.handle = some self → P w.disk.issued self.state
  born : ∀ self, w.handle = some self → Born root w.disk
  safe : ∀ self, w.handle = some self → self.poisoned = false →
    w.disk.Safe root .state (.state self.state)
  ahead : ∀ self, w.handle = some self → ∃ i, (∀ u, i u = true → w.disk.issued u = true) ∧
    P i self.state ∧ Cells root (Next root (Given π i w.disk.issued) self.state) w.disk

end

namespace Crash

theorem issued (h : Crash root s s') : s'.issued = s.issued := by
  cases h with
  | process => rfl
  | power hp _ => exact hp.issued

theorem cells (h : Crash root s s') (hc : Cells root P s) : Cells root P s' := by
  cases h with
  | process => exact hc
  | power hp hd =>
    have visible : Held P (s'.lookup root .state) := by
      by_cases hr : s'.dir root = true
      · rcases hp.lookup hr .state with hv | hv
        · exact hc.1.survives hv
        · exact hc.2.survives hv
      · simpa [Disk.lookup, hr] using Held.none
    exact ⟨visible, by rw [hp.safeFile]; exact visible⟩

theorem born (h : Crash root s s') (hb : Born root s) : Born root s' := by
  cases h with
  | process => exact hb
  | power hp hd =>
    have hr : s.dir root = true := by
      by_contra hr
      exact hb.1 (by simp [Disk.lookup, hr])
    have visible : s'.lookup root .state ≠ none := by
      intro he
      rcases hp.lookup (hd hr) .state with hv | hv <;> rw [he] at hv
      · cases ho : s.lookup root .state with
        | none => exact hb.1 ho
        | some f => rw [ho] at hv; exact hv
      · cases ho : s.safeFile root .state with
        | none => exact hb.2 ho
        | some f => rw [ho] at hv; exact hv
    exact ⟨visible, by rw [hp.safeFile]; exact visible⟩

end Crash

namespace Outside

theorem of_frame {K : Dir → FileName κ → Prop} (hf : Frame K s s') (hk : K root .state) :
    Outside root s s' := ⟨hf.now _ _ hk, hf.safe _ _ hk, hf.issued⟩

theorem cells (h : Outside root s s') (hc : Cells root P s) : Cells root P s' := by
  refine ⟨hc.1.upgrade h.now, ?_⟩
  rcases h.safe with he | hu
  · rw [he]
    exact hc.2
  · exact hc.1.upgrade hu

theorem born (h : Outside root s s') (hb : Born root s) : Born root s' := by
  refine ⟨fun hn => ?_, fun hn => ?_⟩
  · have := h.now
    rw [hn] at this
    exact hb.1 this.none_right
  · rcases h.safe with he | hu
    · exact hb.2 (he.symm.trans hn)
    · rw [hn] at hu
      exact hb.1 hu.none_right

theorem safe_of {v : Content κ} (h : Outside root s s') (hs : s.Safe root .state v) :
    s'.Safe root .state v := by
  have hn := h.now
  rw [hs.1] at hn
  refine ⟨hn.synced, ?_⟩
  rcases h.safe with he | hu
  · exact he.trans hs.2
  · rw [hs.1] at hu
    exact hu.synced

end Outside

section

variable [DecidableEq κ] [KeyHash κ] [Crates] {π : Env (FileName κ) (Content κ)}
  {w w' : World κ} {self self' : LocalStorage κ} {request : Request} {answer : HsmResult Reply}
  {Q : (String → Bool) → State κ → Prop}

theorem Closed.stable {π : Policy (FileName κ) (Content κ)} (h : Closed root P) :
    Stable π root fun _ => P :=
  ⟨fun _ hp => hp, fun _ hp hs => h _ _ _ _ _ hp hs⟩

theorem Next.mono {fresh fresh' : String → Prop} {st next : State κ} (h : Next root fresh st next)
    (hf : ∀ u, fresh u → fresh' u) : Next root fresh' st next :=
  h.imp id fun ⟨request, answer, hs⟩ => ⟨request, answer, hs.mono hf⟩

theorem Stable.next (h : Stable π.toPolicy root Q) {i i' : String → Bool} {st next : State κ}
    (hi : ∀ u, i u = true → i' u = true) (hq : Q i st)
    (hn : Next root (Given π.toPolicy i i') st next) :
    Q i' next := by
  rcases hn with rfl | ⟨request, answer, hs⟩
  · exact h.mono hi hq
  · exact h.call hi hq hs

theorem Midway.next (h : Midway π self request s s') :
    ∃ next, Next self.root (Given π.toPolicy s.issued s'.issued) self.state next ∧
      Between self.root s' self.state next := by
  obtain ⟨next, hn, hb, -⟩ := h
  exact ⟨next, hn.imp id fun ⟨answer, ha⟩ => ⟨request, answer, ha⟩, hb⟩

namespace World

theorem keeps_none (hc : Cells root (Q s.issued) s) : Keeps π.toPolicy root Q ⟨s, none⟩ :=
  ⟨hc, nofun, nofun, nofun, nofun, nofun⟩

theorem keeps_safe {self : LocalStorage κ} (hr : self.root = root) (hp : Q s.issued self.state)
    (hs : s.Safe root .state (.state self.state)) : Keeps π.toPolicy root Q ⟨s, some self⟩ := by
  refine ⟨.of_safe hs hp, ?_, ?_, ?_, ?_, ?_⟩ <;> rintro _ ⟨⟩
  · exact hr
  · exact hp
  · exact .of_safe hs
  · exact fun _ => hs
  · exact ⟨s.issued, fun _ h => h, hp, .of_safe hs (.inl rfl)⟩

theorem Keeps.call (h : Keeps π.toPolicy root Q ⟨s, some self⟩) (stable : Stable π.toPolicy root Q)
    (hr : Runs π.machine (self.perform request) s (answer, self') s') :
    Keeps π.toPolicy root Q ⟨s', some self'⟩ := by
  obtain rfl := h.root_eq self rfl
  have hp := h.cached self rfl
  by_cases hd : self.poisoned = true
  · rw [perform_poisoned hd, Runs.ret_iff] at hr
    obtain ⟨hr, rfl⟩ := hr
    cases hr
    exact h
  have hd : self.poisoned = false := by simpa using hd
  have hi : ∀ u, s.issued u = true → s'.issued u = true := fun _ => hr.issued
  rcases perform_runs hd (h.safe self rfl hd) hr with ⟨-, hs, -⟩ | ⟨ha, hs, -⟩ | ⟨ha, -, hb, -⟩
  · exact keeps_safe rfl (stable.mono hi hp) hs
  · exact keeps_safe rfl (stable.call hi hp ha) hs
  · refine ⟨.between hb (stable.mono hi hp) (stable.call hi hp ha), ?_, ?_, ?_, ?_, ?_⟩ <;>
      rintro _ ⟨⟩
    · rfl
    · exact stable.mono hi hp
    · exact .of_between hb
    · exact fun h => by cases h
    · exact ⟨s.issued, hi, hp, .between hb (.inl rfl) (.inr ⟨_, _, ha⟩)⟩

theorem Keeps.cut (h : Keeps π.toPolicy root Q ⟨s, some self⟩) (stable : Stable π.toPolicy root Q)
    (hc : Cuts π.machine (self.perform request) s s') :
    Cells root (Q s'.issued) s' ∧ Born root s' := by
  obtain rfl := h.root_eq self rfl
  by_cases hd : self.poisoned = true
  · rw [perform_poisoned hd] at hc
    cases hc
    exact ⟨h.cells, h.born self rfl⟩
  have hd : self.poisoned = false := by simpa using hd
  have hi : ∀ u, s.issued u = true → s'.issued u = true := fun _ => hc.issued
  obtain ⟨next, hn, hb⟩ := (perform_cuts hd (h.safe self rfl hd) hc).next
  have hp := h.cached self rfl
  exact ⟨.between hb (stable.mono hi hp) (stable.next hi hp hn), .of_between hb⟩

theorem Step.issued (h : Step π root w w') {u : String} (hu : w.disk.issued u = true) :
    w'.disk.issued u = true := by
  cases h with
  | call hr => exact hr.issued hu
  | crash hc hx => exact hx.issued ▸ hc.issued hu
  | opened hr => exact hr.issued hu
  | refused hr => exact hr.issued hu
  | cut hc hx => exact hx.issued ▸ hc.issued hu
  | outside ho => exact ho.issued u hu

/-- One step keeps what calls keep; only a root without metadata, or one whose metadata cannot be
looked at, gets new ones. -/
theorem Step.keeps (h : Step π root w w') (stable : Stable π.toPolicy root Q)
    (new : π.statFaults = true ∨ ¬ Born root w.disk →
      ∀ i, (∀ u, w.disk.issued u = true → i u = true) → ∀ a b, Q i (State.new a b))
    (hw : w.Keeps π.toPolicy root Q) :
    w'.Keeps π.toPolicy root Q ∧ (Born root w.disk → Born root w'.disk) := by
  have absent : ∀ {s : Disk (FileName κ) (Content κ)}, s.lookup root .state = none →
    ¬ Born root s :=
    fun hl hb => hb.1 hl
  cases h with
  | call hr =>
    have hk := hw.call stable hr
    exact ⟨hk, fun _ => hk.born _ rfl⟩
  | crash hc hx =>
    obtain ⟨hk, hb⟩ := hw.cut stable hc
    refine ⟨keeps_none ?_, fun _ => hx.born hb⟩
    rw [hx.issued]
    exact hx.cells hk
  | @opened self s s' hr =>
    have hi : ∀ st, Q s.issued st → Q s'.issued st := fun st => stable.mono fun _ => hr.issued
    obtain ⟨hk, ho⟩ := Prog.wp_sound_runs (wp_open (hw.cells.mono hi) fun hl =>
      new (hl.imp_right absent) _ fun _ => hr.issued) hr
    obtain ⟨hr, -, hp, hs⟩ := ho _ rfl
    exact ⟨keeps_safe hr hp hs, hk.2⟩
  | @refused e s s' hr =>
    have hi : ∀ st, Q s.issued st → Q s'.issued st := fun st => stable.mono fun _ => hr.issued
    obtain ⟨hk, -⟩ := Prog.wp_sound_runs (wp_open (hw.cells.mono hi) fun hl =>
      new (hl.imp_right absent) _ fun _ => hr.issued) hr
    exact ⟨keeps_none hk.1, hk.2⟩
  | @cut s s' s'' hc hx =>
    have hi : ∀ st, Q s.issued st → Q s'.issued st := fun st => stable.mono fun _ => hc.issued
    have hk := Prog.wp_sound_cuts (wp_open (hw.cells.mono hi) fun hl =>
      new (hl.imp_right absent) _ fun _ => hc.issued) hc
    refine ⟨keeps_none ?_, fun hb => hx.born (hk.2 hb)⟩
    rw [hx.issued]
    exact hx.cells hk.1
  | @outside handle s s' ho =>
    have hi : ∀ st, Q s.issued st → Q s'.issued st := fun st => stable.mono ho.issued
    refine ⟨⟨(ho.cells hw.cells).mono hi, hw.root_eq, fun self hs => hi _ (hw.cached self hs),
      fun self hs => ho.born (hw.born self hs), fun self hs hd => ho.safe_of (hw.safe self hs hd),
      fun self hs => ?_⟩, ho.born⟩
    obtain ⟨i, hle, hq, hc⟩ := hw.ahead self hs
    exact ⟨i, fun u hu => ho.issued u (hle u hu), hq, (ho.cells hc).mono fun st hn =>
      hn.mono fun u hu => hu.mono (fun _ h => h) ho.issued⟩

theorem Steps.keeps (h : Steps π root w w') (stable : Stable π.toPolicy root Q)
    (hb : Born root w.disk)
    (new : π.statFaults = true → ∀ i, (∀ u, w.disk.issued u = true → i u = true) →
      ∀ a b, Q i (State.new a b))
    (hw : w.Keeps π.toPolicy root Q) : w'.Keeps π.toPolicy root Q ∧ Born root w'.disk := by
  suffices w'.Keeps π.toPolicy root Q ∧ Born root w'.disk ∧
      ∀ u, w.disk.issued u = true → w'.disk.issued u = true from ⟨this.1, this.2.1⟩
  induction h with
  | refl => exact ⟨hw, hb, fun _ hu => hu⟩
  | tail _ hs ih =>
    obtain ⟨hk, hb, hi⟩ := ih
    obtain ⟨hk', hb'⟩ := hs.keeps stable (fun hn i hle =>
      new (hn.resolve_right fun h => h hb) i fun u hu => hle u (hi u hu)) hk
    exact ⟨hk', hb' hb, fun u hu => hs.issued (hi u hu)⟩

/-- What holds of new metadata and is kept by calls holds of all metadata ever reached. -/
theorem Reachable.keeps (h : Reachable π root w) (stable : Stable π.toPolicy root Q)
    (new : ∀ i a b, Q i (State.new a b)) : w.Keeps π.toPolicy root Q := by
  obtain ⟨s, hl, hs, h⟩ := h
  induction h with
  | refl => exact keeps_none ⟨by rw [hl]; exact .none, by rw [hs]; exact .none⟩
  | tail _ hs ih => exact (hs.keeps stable (fun _ i _ => new i) ih).1

/-- What holds of the metadata a handle has cached and is kept by calls holds of all metadata
seen from then on, if looks can fail also of new ones. -/
theorem Steps.since {Q₀ : (String → Bool) → State κ → Prop} (hs : Steps π root w w')
    (h : w.Keeps π.toPolicy root Q₀) (hw : w.handle = some self) (stable : Stable π.toPolicy root Q)
    (hq : ∀ i, Q₀ i self.state → Q i self.state)
    (new : π.statFaults = true → ∀ i, (∀ u, w.disk.issued u = true → i u = true) →
      ∀ a b, Q i (State.new a b)) : w'.Keeps π.toPolicy root Q := by
  obtain ⟨i, hle, hq₀, hc⟩ := h.ahead self hw
  refine (hs.keeps stable (h.born self hw) new ?_).1
  refine ⟨hc.mono fun st hn => stable.next hle (hq i hq₀) hn, h.root_eq, ?_, h.born, h.safe, ?_⟩
  · intro self' hs'
    obtain rfl : self = self' := Option.some.inj (hw.symm.trans hs')
    exact hq _ (h.cached _ hw)
  · intro self' hs'
    obtain rfl : self = self' := Option.some.inj (hw.symm.trans hs')
    exact ⟨i, hle, hq i hq₀, hc⟩

theorem Steps.since_sighted {π : Policy (FileName κ) (Content κ)}
    {Q₀ : (String → Bool) → State κ → Prop}
    (hs : Steps π.sighted root w w') (h : w.Keeps π root Q₀) (hw : w.handle = some self)
    (stable : Stable π root Q) (hq : ∀ i, Q₀ i self.state → Q i self.state) : w'.Keeps π root Q :=
  hs.since h hw stable hq fun blind => Bool.noConfusion blind

theorem Reachable.steps (h : Reachable π root w) (hs : Steps π root w w') :
    Reachable π root w' := by
  obtain ⟨s, hl, hs₀, h⟩ := h
  exact ⟨s, hl, hs₀, h.trans hs⟩

/-- A version of the metadata: the cached one, the file's, or its safe copy's. -/
inductive Version (root : Dir) (w : World κ) (st : State κ) : Prop where
  | cached {self : LocalStorage κ} : w.handle = some self → self.state = st → Version root w st
  | visible {b : Bool} : w.disk.lookup root .state = some ⟨.state st, b⟩ → Version root w st
  | safe {b : Bool} : w.disk.safeFile root .state = some ⟨.state st, b⟩ → Version root w st

theorem Keeps.version {π : Policy (FileName κ) (Content κ)} (h : w.Keeps π root Q)
    (hv : w.Version root st) :
    Q w.disk.issued st := by
  cases hv with
  | cached hw he => exact he ▸ h.cached _ hw
  | visible hl =>
    obtain ⟨st', he, hp⟩ := h.cells.1 _ hl
    cases he
    exact hp
  | safe hl =>
    obtain ⟨st', he, hp⟩ := h.cells.2 _ hl
    cases he
    exact hp

end World

end

end HsmRs
