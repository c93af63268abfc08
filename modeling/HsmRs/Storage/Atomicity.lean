import HsmRs.Storage.Residency

/-! # Atomic calls

A call that fails changes nothing but the record of its failure. A crash leaves
the metadata from before the call or from after it, and those from after it once
the call has answered for good. A handle that could not persist does nothing more.
-/

namespace HsmRs

section

variable {κ : Type} [DecidableEq κ] [KeyHash κ] [Crates] {root : Dir} {st : State κ}
  {π : Policy (FileName κ) (Content κ)} {s s' s'' : Disk (FileName κ) (Content κ)}
  {self self' : LocalStorage κ} {request : Request} {answer : HsmResult Reply} {w : World κ}
  {P : State κ → Prop}

/-- The store is opened again, after any number of opens that failed or crashed. -/
inductive Reopens (π : Policy (FileName κ) (Content κ)) (root : Dir) :
    Disk (FileName κ) (Content κ) → LocalStorage κ → Disk (FileName κ) (Content κ) → Prop where
  | opened {self : LocalStorage κ} {s s' : Disk (FileName κ) (Content κ)} :
      Runs (fsMachine π) (LocalStorage.open root).run s (.ok self) s' → Reopens π root s self s'
  | refused {e : HsmError} {self : LocalStorage κ} {s s' s'' : Disk (FileName κ) (Content κ)} :
      Runs (fsMachine π) (LocalStorage.open root : Io κ _).run s (.error e) s' →
      Reopens π root s' self s'' → Reopens π root s self s''
  | cut {self : LocalStorage κ} {s s₁ s₂ s' : Disk (FileName κ) (Content κ)} :
      Cuts (fsMachine π) (LocalStorage.open root : Io κ _).run s s₁ → Crash root s₁ s₂ →
      Reopens π root s₂ self s' → Reopens π root s self s'

omit [KeyHash κ] [Crates] in
theorem Reopens.finds (h : Reopens π root s self s') (hc : Cells root P s) (hb : Born root s) :
    P self.state ∧ self.poisoned = false := by
  have new : ∀ {s : Disk (FileName κ) (Content κ)}, Born root s →
      π.sighted.statFaults = true ∨ s.lookup root .state = none → ∀ a b, P (State.new a b) :=
    fun hb hl => (hb.1 (hl.resolve_left nofun)).elim
  induction h with
  | opened hr =>
    obtain ⟨-, ho⟩ := Prog.wp_sound_runs (wp_open hc (new hb)) hr
    obtain ⟨-, hp, hst, -⟩ := ho _ rfl
    exact ⟨hst, hp⟩
  | refused hr _ ih =>
    obtain ⟨hk, -⟩ := Prog.wp_sound_runs (wp_open hc (new hb)) hr
    exact ih hk.1 (hk.2 hb)
  | cut hx hx' _ ih =>
    have hk := Prog.wp_sound_cuts (wp_open hc (new hb)) hx
    exact ih (hx'.cells hk.1) (hx'.born (hk.2 hb))

theorem Outcome.error {e : HsmError} (h : Outcome π self request s (.error e) self' s') :
    self'.state = { self.state with steps := self'.state.steps } ∧
    (self'.state.steps = self.state.steps ∨ ∃ ctx r f, request = .step ctx r ∧
      e = SavedFailure.intoError f ∧ self.state.steps.lookup (key (.step ctx r.name)) = none ∧
      self'.state.steps =
        self.state.steps.insert (key (.step ctx r.name)) ⟨key (.request ctx r), .error f⟩) := by
  cases h with
  | kept => exact ⟨rfl, .inl rfl⟩
  | adopted ha =>
    generalize he : (Except.error e : HsmResult Reply) = answer at ha
    cases ha with
    | @failed ctx r f _ hk =>
      cases he
      exact ⟨rfl, .inr ⟨ctx, r, f, rfl, rfl, hk, rfl⟩⟩
    | _ => cases he
  | poisoned => exact ⟨rfl, .inl rfl⟩

theorem Outcome.safe (h : Outcome π self request s answer self' s')
    (hd : ∀ e, answer = .error e → e.Definite) : s'.Safe self.root .state (.state self'.state) := by
  cases h with
  | kept _ hs => exact hs
  | adopted _ hs => exact hs
  | poisoned _ he => exact (he (hd _ rfl)).elim

end

namespace Reference

def poisoned : Option (World Keyed) :=
  (World.start ["s"] ["store", "ns", "t1"] blank).bind
    (World.play (fun n => n = 83) [(.import "e" [0], ["u0", "t2", "t3"])])

end Reference

end HsmRs
