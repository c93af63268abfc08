import HsmRs.Storage.World

/-! # What all versions of the metadata satisfy

A call turns what holds of the cached metadata and of both versions on disk into what holds
of the metadata that it decides on, wherever it is cut off.
-/

namespace HsmRs

variable {κ : Type} {s s' : Disk (FileName κ) (Content κ)} {root : Dir} {P R : State κ → Prop}

/-- Every version of the metadata satisfies `P`. The cached one is that on disk unless the handle
is poisoned. -/
structure Holding (root : Dir) (P : State κ → Prop) (s : Disk (FileName κ) (Content κ))
    (handle : Option (LocalStorage κ)) : Prop where
  cells : Cells root P s
  root_eq : ∀ self, handle = some self → self.root = root
  cached : ∀ self, handle = some self → P self.state
  safe : ∀ self, handle = some self → self.poisoned = false →
    s.Safe root .state (.state self.state)

namespace Holding

variable {handle : Option (LocalStorage κ)} {self : LocalStorage κ}

theorem closed (h : Cells root P s) : Holding root P s none := ⟨h, nofun, nofun, nofun⟩

theorem mono (h : Holding root P s handle) (hp : ∀ st, P st → R st) : Holding root R s handle :=
  ⟨h.cells.mono hp, h.root_eq, fun self hs => hp _ (h.cached self hs), h.safe⟩

theorem frame {K : Dir → FileName κ → Prop} (h : Holding root P s handle) (hf : Frame K s s')
    (hk : K root .state) : Holding root P s' handle :=
  ⟨h.cells.frame hf hk, h.root_eq, h.cached, fun self hs hd => (h.safe self hs hd).frame hf hk⟩

theorem of_safe (hr : self.root = root) (hs : s.Safe root .state (.state self.state))
    (hp : P self.state) : Holding root P s (some self) := by
  subst hr
  refine ⟨.of_safe hs hp, ?_, ?_, ?_⟩ <;> rintro _ ⟨⟩
  · rfl
  · exact hp
  · exact fun _ => hs

theorem version {st : State κ} (h : Holding root P s handle)
    (hv : World.Version root ⟨s, handle⟩ st) : P st := by
  cases hv with
  | cached hw he => exact he ▸ h.cached _ hw
  | visible hl =>
    obtain ⟨st', he, hp⟩ := h.cells.1 _ hl
    cases he
    exact hp
  | safe hl =>
    obtain ⟨st', he, hp⟩ := h.cells.2 _ hl
    cases he
    exact hp

variable [DecidableEq κ] [KeyHash κ] [Crates] {π : Policy (FileName κ) (Content κ)}
  {request : Request} {answer : HsmResult Reply} {self' : LocalStorage κ}

theorem call (h : Holding root P s (some self))
    (hr : Runs (fsMachine π) (self.perform request) s (answer, self') s')
    (refused : s' = s → (∀ x, answer ≠ .ok x) → ∀ st, P st → R st)
    (kept : ∀ next, (∀ x, answer = .ok x →
        Settles root (Given π s.issued s'.issued) self.state request answer none) →
      Lays root self.state next s s' → P self.state → R self.state)
    (moved : ∀ answer' next, (∀ x, answer = .ok x → answer' = answer) →
      Settles root (Given π s.issued s'.issued) self.state request answer' (some next) →
      Lays root self.state next s s' → P self.state → R next) :
    Holding root R s' (some self') ∧ (Born root s ∨ (∃ x, answer = .ok x) → Born root s') := by
  obtain rfl := h.root_eq self rfl
  have hp := h.cached self rfl
  by_cases hd : self.poisoned = true
  · rw [perform_poisoned hd, Runs.ret_iff] at hr
    obtain ⟨hr, rfl⟩ := hr
    cases hr
    exact ⟨h.mono (refused rfl (by simp)), by simp⟩
  have hd : self.poisoned = false := by simpa using hd
  rcases perform_runs hd (h.safe self rfl hd) hr with ⟨ha, hs, hl⟩ | ⟨ha, hs, hl⟩ | ⟨ha, -, hb, hl⟩
  · exact ⟨.of_safe rfl hs (kept _ (fun _ _ => ha) hl hp), fun _ => .of_safe hs⟩
  · exact ⟨.of_safe rfl hs (moved _ _ (fun _ _ => rfl) ha hl hp),
      fun _ => .of_safe hs⟩
  · have hk := kept _ (by simp) hl hp
    refine ⟨⟨.between hb hk (moved _ _ (by simp) ha hl hp), ?_, ?_, ?_⟩, fun _ =>
      .of_between hb⟩ <;>
      rintro _ ⟨⟩
    · rfl
    · exact hk
    · exact nofun

theorem cut (h : Holding root P s (some self))
    (hc : Cuts (fsMachine π) (self.perform request) s s')
    (refused : s' = s → ∀ st, P st → R st)
    (kept : ∀ next, Lays root self.state next s s' → P self.state → R self.state)
    (moved : ∀ answer next,
      Settles root (Given π s.issued s'.issued) self.state request answer (some next) →
      Lays root self.state next s s' → P self.state → R next) :
    Cells root R s' ∧ (Born root s → Born root s') := by
  obtain rfl := h.root_eq self rfl
  have hp := h.cached self rfl
  by_cases hd : self.poisoned = true
  · rw [perform_poisoned hd] at hc
    cases hc
    exact ⟨h.cells.mono (refused rfl), fun hb => hb⟩
  have hd : self.poisoned = false := by simpa using hd
  obtain ⟨next, hn, hb, hl⟩ := perform_cuts hd (h.safe self rfl hd) hc
  have hk := kept _ hl hp
  refine ⟨.between hb hk ?_, fun _ => .of_between hb⟩
  rcases hn with rfl | ⟨answer, ha⟩
  · exact hk
  · exact moved _ _ ha hl hp

end Holding

/-! ## Protected steps -/

section

variable [DecidableEq κ] [KeyHash κ] {π : Policy (FileName κ) (Content κ)} {α : Type}
  {self : LocalStorage κ} {next : State κ}

open LocalStorage

omit [KeyHash κ] in
theorem wp_adopt_holding {answer : HsmResult α} (hs : s.Safe self.root .state (.state self.state))
    (hr : R self.state) (hn : R next) :
    (self.adopt next answer).wp (fsMachine π) (Cells self.root R)
      (fun x s' => Holding self.root R s' (some x.2)) s := by
  have cells : ∀ s', Frame Named s s' ∨ Placed self.root .state (.state next) s s' →
      Cells self.root R s' := by
    rintro s' (hf | hp)
    · exact (Cells.of_safe hs hr).frame hf id
    · exact (Cells.of_safe hs hr).placed hp hn
  refine wp_adopt cells (fun s' _ hs' _ => .of_safe rfl hs' hn) fun e s' _ h _ => ?_
  refine ⟨cells s' h, ?_, ?_, ?_⟩ <;> rintro _ ⟨⟩
  · rfl
  · exact hr
  · exact nofun

/-- A protected step is specified by what its effect can come to: a value, or an error that is
recorded. -/
theorem wp_step_holding [Recorded α] {f : α → Reply} {ctx : OperationContext}
    {request : StepRequest} {effect : State κ → Io κ (α × State κ)} (hp : self.poisoned = false)
    (hs : s.Safe self.root .state (.state self.state)) (hr : R self.state)
    (run : qualify ctx = .ok () → self.state.steps.lookup (key (.step ctx request.name)) = none →
      (effect self.state).run.wp (fsMachine π)
        (fun s' => s'.Safe self.root .state (.state self.state))
        (fun x s' => s'.Safe self.root .state (.state self.state) ∧
          (∀ value next, x = .ok (value, next) → R (next.record (key (.step ctx request.name))
            ⟨key (.request ctx request), .ok (Recorded.toValue value)⟩)) ∧
          ∀ e : SavedFailure, x = .error e.intoError →
            R (self.state.record (key (.step ctx request.name))
              ⟨key (.request ctx request), .error e⟩)) s) :
    (replying f (self.step ctx request effect)).wp (fsMachine π) (Cells self.root R)
      (fun x s' => Holding self.root R s' (some x.2)) s := by
  have same : Holding self.root R s (some self) := .of_safe rfl hs hr
  refine wp_replying (wp_step hp same.cells (fun _ _ => same) (fun _ _ _ => same) fun hq hn => ?_)
  refine Prog.wp_mono (run hq hn) (fun s' h => .of_safe h hr) ?_
  rintro (e | ⟨value, next⟩) s' - ⟨hs', ok, error⟩
  · refine ⟨fun _ => .of_safe rfl hs' hr, ?_⟩
    rintro e rfl
    exact wp_adopt_holding hs' hr (error e rfl)
  · exact wp_adopt_holding hs' hr (ok value next rfl)

/-! ## Healthy handles -/

omit [KeyHash κ] in
theorem wp_adopt_healthy {answer : HsmResult α} (hπ : π.Smooth) (hp : self.poisoned = false)
    (hd : s.dir self.root = true) :
    (self.adopt next answer).wp (fsMachine π) (fun _ => True)
      (fun x _ => x.2.poisoned = false) s := by
  refine wp_adopt (fun _ _ => trivial) (fun _ _ _ _ => hp) fun e s' _ _ hn => ?_
  rcases hn with hn | hn
  · exact (hn hπ).elim
  · rw [hd] at hn
    cases hn

theorem wp_step_healthy [Recorded α] {f : α → Reply} {ctx : OperationContext}
    {request : StepRequest} {effect : State κ → Io κ (α × State κ)} (hπ : π.Smooth)
    (hp : self.poisoned = false)
    (run : (effect self.state).run.wp (fsMachine π) (fun _ => True)
      (fun _ s' => s'.dir self.root = true) s) :
    (replying f (self.step ctx request effect)).wp (fsMachine π) (fun _ => True)
      (fun x _ => x.2.poisoned = false) s := by
  refine wp_replying (wp_step hp trivial (fun _ _ => hp) (fun _ _ _ => hp) fun _ _ => ?_)
  refine Prog.wp_mono run (fun _ _ => trivial) ?_
  rintro (e | ⟨value, next⟩) s' - hd
  · exact ⟨fun _ => hp, fun _ _ => wp_adopt_healthy hπ hp hd⟩
  · exact wp_adopt_healthy hπ hp hd

/-- Without faults no call poisons its handle. -/
theorem wp_perform_healthy [Crates] {request : Request} (hπ : π.Smooth) (hp : self.poisoned = false)
    (hs : s.Safe self.root .state (.state self.state)) :
    (self.perform request).wp (fsMachine π) (fun _ => True)
      (fun x _ => x.2.poisoned = false) s := by
  have hd : s.dir self.root = true := Disk.dir_of_lookup (n := .state) (by simp [hs.1])
  have named : ∀ {s'}, Frame Named s s' → s'.dir self.root = true := fun hf =>
    hf.dir _ .state id hd
  cases request with
  | step ctx request =>
    cases request with
    | prepareArchive data =>
      exact wp_step_healthy hπ hp (Prog.wp_frame spares_prepareArchiveEffect (fun _ _ => trivial)
        fun _ _ _ hf => named hf)
    | commitArchive view receipt =>
      exact wp_step_healthy hπ hp (Prog.wp_frame spares_commitArchiveEffect (fun _ _ => trivial)
        fun _ _ _ hf => named hf)
    | release expected =>
      exact wp_step_healthy hπ hp (Prog.wp_frame spares_releaseEffect (fun _ _ => trivial)
        fun _ _ _ hf => named hf)
    | prepareRecall expected anchor =>
      exact wp_step_healthy hπ hp (Prog.wp_frame spares_prepareRecallEffect (fun _ _ => trivial)
        fun _ _ _ hf => named hf)
    | commitRecall target evidence =>
      exact wp_step_healthy hπ hp (Prog.wp_mono (wp_publishing hs) (fun _ _ => trivial)
        fun _ s' h _ => Disk.dir_of_lookup (n := .state) (by simp [h.1.1]))
  | «import» entityId bytes =>
    refine wp_replying ?_
    unfold LocalStorage.import
    split
    · exact ⟨trivial, hp⟩
    · simp only [healthy_eq_ok.mpr hp]
      split
      · exact ⟨trivial, hp⟩
      · refine Prog.wp_bind.mpr (wp_importLayout (fun _ _ => trivial) (fun layout s' hf _ _ => ?_)
          fun _ _ _ => ⟨trivial, hp⟩)
        exact wp_adopt_healthy hπ hp (hf.dir _ .state ⟨id, hd⟩ hd)
  | collectGarbage =>
    refine wp_replying ?_
    unfold LocalStorage.collectGarbage
    simp only [healthy_eq_ok.mpr hp]
    refine Prog.wp_bind.mpr (Prog.wp_frame (K := Cell self.root) ?_ (fun _ _ => trivial) ?_)
    · refine Prog.within_bind (spares_sweep fun layout _ d n hc h => ?_) fun _ =>
        Prog.within_bind (within_io.mpr trivial) fun _ => trivial
      obtain ⟨rfl, -⟩ := hc
      have := h.length_le
      simp only [layoutDir, layoutsDir, List.length_cons] at this
      omega
    · rintro (e | n) s' - hf
      · exact ⟨trivial, hp⟩
      · exact wp_adopt_healthy hπ hp (hf.dir _ .state ⟨rfl, rfl⟩ hd)

end

end HsmRs
