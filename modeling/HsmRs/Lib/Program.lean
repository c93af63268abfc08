import Mathlib.Logic.Relation

/-! # Programs over an interface of operations

A program is a tree of operations, one branch for each answer. A machine says
which answers and states an operation can lead to and what a crash in the
middle of it can leave behind. Weakest preconditions speak about completed and
about cut runs at once.
-/

namespace HsmRs

/-- The operations a program may perform and the answers each of them can get. -/
structure Sig where
  Op : Type
  Ans : Op → Type

inductive Prog (S : Sig) (α : Type) where
  | ret (a : α)
  | op (o : S.Op) (k : S.Ans o → Prog S α)

variable {S T : Sig} {α β γ ε σ τ : Type}

namespace Prog

def bind : Prog S α → (α → Prog S β) → Prog S β
  | .ret a, f => f a
  | .op o k, f => .op o fun x => (k x).bind f

instance : Monad (Prog S) where
  pure := .ret
  bind := Prog.bind

@[simp] theorem pure_eq (a : α) : (pure a : Prog S α) = .ret a := rfl

@[simp] theorem ret_bind (a : α) (f : α → Prog S β) : (Prog.ret a >>= f) = f a := rfl

@[simp] theorem op_bind (o : S.Op) (k : S.Ans o → Prog S α) (f : α → Prog S β) :
    (Prog.op o k >>= f) = .op o fun x => k x >>= f := rfl

theorem bind_ret (p : Prog S α) : (p >>= Prog.ret) = p := by
  induction p with
  | ret a => rfl
  | op o k ih => simp [ih]

theorem bind_assoc (p : Prog S α) (f : α → Prog S β) (g : β → Prog S γ) :
    (p >>= f) >>= g = p >>= fun a => f a >>= g := by
  induction p with
  | ret a => rfl
  | op o k ih => simp [ih]

instance : LawfulMonad (Prog S) :=
  LawfulMonad.mk' _ (fun p => bind_ret p) (fun _ _ => rfl) bind_assoc

theorem rest_ne {o : S.Op} {k : S.Ans o → Prog S α} {x : S.Ans o} : k x ≠ .op o k := by
  suffices ∀ p : Prog S α, ∀ (o : S.Op) (k : S.Ans o → Prog S α) (x : S.Ans o),
      p = .op o k → k x ≠ p from this _ o k x rfl
  intro p
  induction p with
  | ret a => exact nofun
  | op o k ih =>
    rintro _ _ x ⟨⟩ h
    exact ih x o k x h rfl

def perform (o : S.Op) : Prog S (S.Ans o) := .op o .ret

/-- Run a program of one interface by programs of another, threading a state. -/
def interp (h : (o : S.Op) → τ → Prog T (S.Ans o × τ)) : Prog S α → τ → Prog T (α × τ)
  | .ret a, t => .ret (a, t)
  | .op o k, t => h o t >>= fun x => (k x.1).interp h x.2

@[simp] theorem interp_ret (h : (o : S.Op) → τ → Prog T (S.Ans o × τ)) (a : α) (t : τ) :
    (Prog.ret a).interp h t = .ret (a, t) := rfl

@[simp] theorem interp_op (h : (o : S.Op) → τ → Prog T (S.Ans o × τ)) (o : S.Op)
    (k : S.Ans o → Prog S α) (t : τ) :
    (Prog.op o k).interp h t = h o t >>= fun x => (k x.1).interp h x.2 := rfl

theorem interp_bind (h : (o : S.Op) → τ → Prog T (S.Ans o × τ)) (p : Prog S α) (f : α → Prog S β)
    (t : τ) : (p >>= f).interp h t = p.interp h t >>= fun x => (f x.1).interp h x.2 := by
  induction p generalizing t with
  | ret a => rfl
  | op o k ih => simp only [op_bind, interp_op, ih, bind_assoc]

/-- Perform every operation by a program. -/
def compile (h : (o : S.Op) → Prog T (S.Ans o)) : Prog S α → Prog T α
  | .ret a => .ret a
  | .op o k => h o >>= fun x => (k x).compile h

/-! ## What a program can do whatever it is answered -/

/-- Every operation the program can ever perform satisfies `P`. -/
def Within (P : S.Op → Prop) : Prog S α → Prop
  | .ret _ => True
  | .op o k => P o ∧ ∀ x, (k x).Within P

/-- The value `a` is returned under some answers that `A` allows. -/
def Yields (A : (o : S.Op) → S.Ans o → Prop) : Prog S α → α → Prop
  | .ret b, a => a = b
  | .op o k, a => ∃ x, A o x ∧ (k x).Yields A a

section Within

variable {P P' : S.Op → Prop}

@[simp] theorem within_ret (a : α) : (Prog.ret a : Prog S α).Within P := trivial

@[simp] theorem within_op {o : S.Op} {k : S.Ans o → Prog S α} :
    (Prog.op o k).Within P ↔ P o ∧ ∀ x, (k x).Within P := Iff.rfl

theorem Within.bind {p : Prog S α} {f : α → Prog S β} (hp : p.Within P)
    (hf : ∀ a, (f a).Within P) : (p >>= f).Within P := by
  induction p with
  | ret a => exact hf a
  | op o k ih => exact ⟨hp.1, fun x => ih x (hp.2 x)⟩

theorem within_of_forall {p : Prog S α} (h : ∀ o, P o) : p.Within P := by
  induction p with
  | ret a => trivial
  | op o k ih => exact ⟨h o, ih⟩

theorem Within.of_bind {p : Prog S α} {f : α → Prog S β} (h : (p >>= f).Within P) :
    p.Within P := by
  induction p with
  | ret a => trivial
  | op o k ih => exact ⟨h.1, fun x => ih x (h.2 x)⟩

theorem Within.mono {p : Prog S α} (hp : p.Within P) (h : ∀ o, P o → P' o) : p.Within P' := by
  induction p with
  | ret a => trivial
  | op o k ih => exact ⟨h o hp.1, fun x => ih x (hp.2 x)⟩

theorem within_compile {P : T.Op → Prop} {h : (o : S.Op) → Prog T (S.Ans o)} {p : Prog S α}
    (hh : ∀ o, (h o).Within P) : (p.compile h).Within P := by
  induction p with
  | ret a => trivial
  | op o k ih => exact (hh o).bind ih

end Within

section Yields

variable {A A' : (o : S.Op) → S.Ans o → Prop}

@[simp] theorem yields_ret (a b : α) : (Prog.ret b : Prog S α).Yields A a ↔ a = b := Iff.rfl

@[simp] theorem yields_op (o : S.Op) (k : S.Ans o → Prog S α) (a : α) :
    (Prog.op o k).Yields A a ↔ ∃ x, A o x ∧ (k x).Yields A a := Iff.rfl

theorem yields_bind (p : Prog S α) (f : α → Prog S β) (b : β) :
    (p >>= f).Yields A b ↔ ∃ a, p.Yields A a ∧ (f a).Yields A b := by
  induction p with
  | ret a => simp
  | op o k ih =>
    simp only [op_bind, yields_op, ih]
    constructor
    · rintro ⟨x, hx, a, ha, hb⟩
      exact ⟨a, ⟨x, hx, ha⟩, hb⟩
    · rintro ⟨a, ⟨x, hx, ha⟩, hb⟩
      exact ⟨x, hx, a, ha, hb⟩

theorem yields_compile {h : (o : T.Op) → Prog S (T.Ans o)} {p : Prog T α} {a : α} :
    (p.compile h).Yields A a ↔ p.Yields (fun o x => (h o).Yields A x) a := by
  induction p with
  | ret b => rfl
  | op o k ih => simp only [compile, yields_bind, yields_op, ih]

theorem Within.bind_yields {P : S.Op → Prop} {p : Prog S α} {f : α → Prog S β} (hp : p.Within P)
    (hf : ∀ a, p.Yields (fun _ _ => True) a → (f a).Within P) : (p >>= f).Within P := by
  induction p with
  | ret a => exact hf a rfl
  | op o k ih => exact ⟨hp.1, fun x => ih x (hp.2 x) fun a ha => hf a ⟨x, trivial, ha⟩⟩

theorem Yields.mono {p : Prog S α} {a : α} (h : p.Yields A a) (hA : ∀ o x, A o x → A' o x) :
    p.Yields A' a := by
  induction p with
  | ret b => exact h
  | op o k ih =>
    obtain ⟨x, hx, hk⟩ := h
    exact ⟨x, hA o x hx, ih x hk⟩

end Yields

end Prog

/-- How operations change a state: the answers and states each can lead to, and
the states a crash in the middle of it can leave. -/
structure Machine (S : Sig) (σ : Type) where
  step : σ → (o : S.Op) → S.Ans o → σ → Prop
  tear : σ → S.Op → σ → Prop

variable {M : Machine S σ}

inductive Runs (M : Machine S σ) : Prog S α → σ → α → σ → Prop where
  | ret (a : α) (s : σ) : Runs M (.ret a) s a s
  | op {o : S.Op} {k : S.Ans o → Prog S α} {s s' s'' : σ} {x : S.Ans o} {a : α} :
      M.step s o x s' → Runs M (k x) s' a s'' → Runs M (.op o k) s a s''

/-- Runs cut off by a crash, between two operations or inside one. -/
inductive Cuts (M : Machine S σ) : Prog S α → σ → σ → Prop where
  | here (p : Prog S α) (s : σ) : Cuts M p s s
  | torn {o : S.Op} {k : S.Ans o → Prog S α} {s s' : σ} :
      M.tear s o s' → Cuts M (.op o k) s s'
  | later {o : S.Op} {k : S.Ans o → Prog S α} {s s' s'' : σ} {x : S.Ans o} :
      M.step s o x s' → Cuts M (k x) s' s'' → Cuts M (.op o k) s s''

namespace Runs

@[simp] theorem ret_iff {a b : α} {s s' : σ} :
    Runs M (.ret a) s b s' ↔ b = a ∧ s' = s := by
  constructor
  · rintro ⟨⟩
    exact ⟨rfl, rfl⟩
  · rintro ⟨rfl, rfl⟩
    exact .ret _ _

theorem op_iff {o : S.Op} {k : S.Ans o → Prog S α} {a : α} {s s'' : σ} :
    Runs M (.op o k) s a s'' ↔ ∃ x s', M.step s o x s' ∧ Runs M (k x) s' a s'' := by
  constructor
  · rintro (_ | ⟨hs, hr⟩)
    exact ⟨_, _, hs, hr⟩
  · rintro ⟨x, s', hs, hr⟩
    exact .op hs hr

theorem bind_iff {p : Prog S α} {f : α → Prog S β} {b : β} {s s'' : σ} :
    Runs M (p >>= f) s b s'' ↔ ∃ a s', Runs M p s a s' ∧ Runs M (f a) s' b s'' := by
  induction p generalizing s with
  | ret a => exact ⟨fun h => ⟨a, s, .ret a s, h⟩, fun ⟨_, _, hr, h⟩ => by cases hr; exact h⟩
  | op o k ih =>
    simp only [Prog.op_bind, op_iff, ih]
    constructor
    · rintro ⟨x, s₁, hs, a, s', hr, hf⟩
      exact ⟨a, s', ⟨x, s₁, hs, hr⟩, hf⟩
    · rintro ⟨a, s', ⟨x, s₁, hs, hr⟩, hf⟩
      exact ⟨x, s₁, hs, a, s', hr, hf⟩

end Runs

theorem Runs.cuts {p : Prog S α} {a : α} {s s' : σ} (h : Runs M p s a s') : Cuts M p s s' := by
  induction h with
  | ret a s => exact .here _ _
  | op hs _ ih => exact .later hs ih

theorem Runs.of_map {p : Prog S α} {f : α → β} {b : β} {s s' : σ}
    (h : Runs M (p >>= fun a => .ret (f a)) s b s') : ∃ a, Runs M p s a s' ∧ b = f a := by
  obtain ⟨a, s₁, hp, hf⟩ := Runs.bind_iff.mp h
  cases hf
  exact ⟨a, hp, rfl⟩

/-- A machine with more steps has more runs. -/
theorem Runs.of_steps {M' : Machine S σ} (hM : ∀ s o x s', M.step s o x s' → M'.step s o x s')
    {p : Prog S α} {a : α} {s s' : σ} (h : Runs M p s a s') : Runs M' p s a s' := by
  induction h with
  | ret a s => exact .ret a s
  | op hs _ ih => exact .op (hM _ _ _ _ hs) ih

theorem Cuts.of_map {p : Prog S α} {f : α → β} {s s' : σ}
    (h : Cuts M (p >>= fun a => .ret (f a)) s s') : Cuts M p s s' := by
  induction p generalizing s with
  | ret a =>
    cases h
    exact .here _ _
  | op o k ih =>
    cases h with
    | here => exact .here _ _
    | torn ht => exact .torn ht
    | later hs hc => exact .later hs (ih _ hc)

theorem Cuts.map {p : Prog S α} {f : α → Prog S β} {s s' : σ} (h : Cuts M p s s') :
    Cuts M (p >>= f) s s' := by
  induction h with
  | here p s => exact .here _ _
  | torn ht => exact .torn ht
  | later hs _ ih => exact .later hs ih

theorem Cuts.after {p : Prog S α} {f : α → Prog S β} {a : α} {s s' s'' : σ} (h : Runs M p s a s')
    (hc : Cuts M (f a) s' s'') : Cuts M (p >>= f) s s'' := by
  induction h with
  | ret a s => exact hc
  | op hs _ ih => exact .later hs (ih hc)

/-- A machine in which every operation is answered completes every program. -/
theorem Prog.exists_runs (total : ∀ s o, ∃ x s', M.step s o x s') (p : Prog S α) (s : σ) :
    ∃ a s', Runs M p s a s' := by
  induction p generalizing s with
  | ret a => exact ⟨a, s, .ret a s⟩
  | op o k ih =>
    obtain ⟨x, s₁, hs⟩ := total s o
    obtain ⟨a, s', hr⟩ := ih x s₁
    exact ⟨a, s', .op hs hr⟩

/-! ## Relations kept by every operation -/

section Kept

variable {P : S.Op → Prop} {R : σ → σ → Prop}

/-- A preorder that contains every step of the operations in `P` relates the ends of
each run of a program made of them. -/
theorem Runs.kept (refl : ∀ s, R s s) (trans : ∀ {a b c}, R a b → R b c → R a c)
    (step : ∀ {s o x s'}, P o → M.step s o x s' → R s s') {p : Prog S α} (hp : p.Within P)
    {s s' : σ} {a : α} (h : Runs M p s a s') : R s s' := by
  induction h with
  | ret a s => exact refl s
  | op hs _ ih => exact trans (step hp.1 hs) (ih (hp.2 _))

theorem Cuts.kept (refl : ∀ s, R s s) (trans : ∀ {a b c}, R a b → R b c → R a c)
    (step : ∀ {s o x s'}, P o → M.step s o x s' → R s s')
    (tear : ∀ {s o s'}, P o → M.tear s o s' → R s s') {p : Prog S α} (hp : p.Within P)
    {s s' : σ} (h : Cuts M p s s') : R s s' := by
  induction h with
  | here p s => exact refl s
  | torn ht => exact tear hp.1 ht
  | later hs _ ih => exact trans (step hp.1 hs) (ih (hp.2 _))

end Kept

/-! ## Weakest preconditions -/

namespace Prog

/-- From `s`, every state a crash can leave satisfies `C` and every completed run ends
in `Q`. -/
def wp (M : Machine S σ) (C : σ → Prop) : Prog S α → (α → σ → Prop) → σ → Prop
  | .ret a, Q, s => C s ∧ Q a s
  | .op o k, Q, s => C s ∧ (∀ s', M.tear s o s' → C s') ∧
      ∀ x s', M.step s o x s' → (k x).wp M C Q s'

variable {C C' : σ → Prop}

@[simp] theorem wp_ret {a : α} {Q : α → σ → Prop} {s : σ} :
    (Prog.ret a : Prog S α).wp M C Q s ↔ C s ∧ Q a s := Iff.rfl

theorem wp_op {o : S.Op} {k : S.Ans o → Prog S α} {Q : α → σ → Prop} {s : σ} :
    (Prog.op o k).wp M C Q s ↔ C s ∧ (∀ s', M.tear s o s' → C s') ∧
      ∀ x s', M.step s o x s' → (k x).wp M C Q s' := Iff.rfl

theorem wp_now {p : Prog S α} {Q : α → σ → Prop} {s : σ} (h : p.wp M C Q s) : C s := by
  cases p <;> exact h.1

theorem wp_mono {p : Prog S α} {Q Q' : α → σ → Prop} {s : σ} (h : p.wp M C Q s)
    (hC : ∀ s, C s → C' s) (hQ : ∀ a s, C s → Q a s → Q' a s) : p.wp M C' Q' s := by
  induction p generalizing s with
  | ret a => exact ⟨hC _ h.1, hQ _ _ h.1 h.2⟩
  | op o k ih =>
    exact ⟨hC _ h.1, fun s' ht => hC _ (h.2.1 s' ht), fun x s' hs => ih x (h.2.2 x s' hs)⟩

theorem wp_bind {p : Prog S α} {f : α → Prog S β} {Q : β → σ → Prop} {s : σ} :
    (p >>= f).wp M C Q s ↔ p.wp M C (fun a s => (f a).wp M C Q s) s := by
  induction p generalizing s with
  | ret a => exact ⟨fun h => ⟨wp_now h, h⟩, fun h => h.2⟩
  | op o k ih => simp only [op_bind, wp_op, ih]

theorem wp_sound_runs {p : Prog S α} {Q : α → σ → Prop} {s s' : σ} {a : α}
    (h : p.wp M C Q s) (hr : Runs M p s a s') : Q a s' := by
  induction hr with
  | ret a s => exact h.2
  | op hs _ ih => exact ih (h.2.2 _ _ hs)

theorem wp_sound_cuts {p : Prog S α} {Q : α → σ → Prop} {s s' : σ}
    (h : p.wp M C Q s) (hc : Cuts M p s s') : C s' := by
  induction hc with
  | here p s => exact wp_now h
  | torn ht => exact h.2.1 _ ht
  | later hs _ ih => exact ih (h.2.2 _ _ hs)

/-- Conversely, what holds of every run and every cut is a precondition. -/
theorem wp_of_runs {p : Prog S α} {Q : α → σ → Prop} {s : σ}
    (hr : ∀ a s', Runs M p s a s' → Q a s') (hc : ∀ s', Cuts M p s s' → C s') :
    p.wp M C Q s := by
  induction p generalizing s with
  | ret a => exact ⟨hc _ (.here _ _), hr _ _ (.ret _ _)⟩
  | op o k ih =>
    exact ⟨hc _ (.here _ _), fun s' ht => hc _ (.torn ht), fun x s' hs =>
      ih x (fun a s'' h => hr a s'' (.op hs h)) (fun s'' h => hc s'' (.later hs h))⟩

theorem wp_and {p : Prog S α} {Q Q' : α → σ → Prop} {s : σ} (h : p.wp M C Q s)
    (h' : p.wp M C' Q' s) :
    p.wp M (fun s => C s ∧ C' s) (fun a s => Q a s ∧ Q' a s) s := by
  induction p generalizing s with
  | ret a => exact ⟨⟨h.1, h'.1⟩, h.2, h'.2⟩
  | op o k ih =>
    exact ⟨⟨h.1, h'.1⟩, fun s' ht => ⟨h.2.1 s' ht, h'.2.1 s' ht⟩,
      fun x s' hs => ih x (h.2.2 x s' hs) (h'.2.2 x s' hs)⟩

end Prog

/-! ## Fallible programs

A fallible program answers with a value or an error, and the rest of it runs after a
success only.
-/

namespace Prog

theorem run_bind (p : ExceptT ε (Prog S) α) (f : α → ExceptT ε (Prog S) β) :
    (p >>= f).run = p.run >>= fun r => match r with
      | .ok a => (f a).run
      | .error e => .ret (.error e) := by
  rw [ExceptT.run_bind]
  congr 1
  funext r
  cases r <;> rfl

@[simp] theorem run_pure (a : α) : (pure a : ExceptT ε (Prog S) α).run = .ret (.ok a) := rfl

@[simp] theorem run_throw (e : ε) :
    (throw e : ExceptT ε (Prog S) α).run = .ret (.error e) := rfl

@[simp] theorem throw_bind (e : ε) (f : α → ExceptT ε (Prog S) β) :
    (throw e >>= f : ExceptT ε (Prog S) β) = throw e := rfl

@[simp] theorem run_liftM (r : Except ε α) :
    (liftM r : ExceptT ε (Prog S) α).run = .ret r := rfl

@[simp] theorem run_monadLift (r : Except ε α) :
    (MonadLift.monadLift r : ExceptT ε (Prog S) α).run = .ret r := rfl

@[simp] theorem run_mk (p : Prog S (Except ε α)) : (ExceptT.mk p).run = p := rfl

/-- One operation, its answer read as a result. -/
abbrev call (o : S.Op) (result : S.Ans o → Except ε α) : ExceptT ε (Prog S) α :=
  ExceptT.mk (.op o fun x => .ret (result x))

/-- An operation that is never answered. -/
def stuck (o : S.Op) (never : S.Ans o → Empty) : ExceptT ε (Prog S) α :=
  ExceptT.mk (.op o fun x => nomatch never x)

/-- The result of a program as a value: its error does not end what follows. -/
def caught (p : ExceptT ε (Prog S) α) : ExceptT ε (Prog S) (Except ε α) :=
  ExceptT.mk (p.run >>= fun r => .ret (.ok r))

section

variable {P : S.Op → Prop} {A : (o : S.Op) → S.Ans o → Prop} {p : ExceptT ε (Prog S) α}
  {f : α → ExceptT ε (Prog S) β}

theorem within_bind (hp : p.run.Within P) (hf : ∀ a, (f a).run.Within P) :
    (p >>= f).run.Within P := by
  rw [run_bind]
  refine hp.bind fun r => ?_
  cases r with
  | ok a => exact hf a
  | error e => trivial

@[simp] theorem yields_liftM_ok {r : Except ε α} {a : α} :
    (liftM r : ExceptT ε (Prog S) α).run.Yields A (.ok a) ↔ r = .ok a := by
  rw [run_liftM, yields_ret, eq_comm]

@[simp] theorem yields_pure_ok {a b : α} :
    (pure b : ExceptT ε (Prog S) α).run.Yields A (.ok a) ↔ b = a := by
  rw [run_pure, yields_ret, Except.ok.injEq, eq_comm]

theorem yields_guard_ok {c : Prop} [Decidable c] {e : ε} {k : β → ExceptT ε (Prog S) α} {a : α} :
    (if c then throw e >>= k else p).run.Yields A (.ok a) ↔ ¬ c ∧ p.run.Yields A (.ok a) := by
  by_cases h : c <;> simp [h]

theorem within_guard {c : Prop} [Decidable c] {e : ε} {k : β → ExceptT ε (Prog S) α}
    (h : p.run.Within P) : (if c then throw e >>= k else p).run.Within P := by
  split
  · trivial
  · exact h

theorem within_guard_iff {c : Prop} [Decidable c] {e : ε} {k : β → ExceptT ε (Prog S) α} :
    (if c then throw e >>= k else p).run.Within P ↔ (¬ c → p.run.Within P) := by
  by_cases h : c <;> simp [h]

theorem within_check {r : Except ε α} : (liftM r >>= f : ExceptT ε (Prog S) β).run.Within P ↔
    ∀ a, r = .ok a → (f a).run.Within P := by
  cases r with
  | error e => exact ⟨fun _ _ h => (nomatch h), fun _ => trivial⟩
  | ok a => exact ⟨fun h _ ha => (Except.ok.inj ha) ▸ h, fun h => h a rfl⟩

theorem within_last {o : S.Op} {g : S.Ans o → Except ε α} : (call o g).run.Within P ↔ P o := by
  simp [call]

theorem within_stuck {o : S.Op} {never : S.Ans o → Empty} (h : P o) :
    (stuck o never : ExceptT ε (Prog S) α).run.Within P := ⟨h, fun x => nomatch never x⟩

/-- A fallible operation: its error ends the program. -/
theorem within_call {o : S.Op} {g : S.Ans o → Except ε α} :
    (call o g >>= f).run.Within P ↔ P o ∧ ∀ x a, g x = .ok a → (f a).run.Within P := by
  rw [run_bind, run_mk, op_bind, within_op]
  refine and_congr_right fun _ => forall_congr' fun x => ?_
  cases g x with
  | error e => exact ⟨fun _ _ h => (nomatch h), fun _ => trivial⟩
  | ok a => exact ⟨fun h _ ha => (Except.ok.inj ha) ▸ h, fun h => h a rfl⟩

theorem yields_bind_ok {b : β} :
    (p >>= f).run.Yields A (.ok b) ↔ ∃ a, p.run.Yields A (.ok a) ∧ (f a).run.Yields A (.ok b) := by
  rw [run_bind, yields_bind]
  constructor
  · rintro ⟨e | a, hp, hf⟩
    · cases hf
    · exact ⟨a, hp, hf⟩
  · rintro ⟨a, hp, hf⟩
    exact ⟨.ok a, hp, hf⟩

variable {C : σ → Prop} {Q : Except ε β → σ → Prop} {s : σ}

theorem wp_run_bind : (p >>= f).run.wp M C Q s ↔ p.run.wp M C (fun r s => match r with
      | .ok a => (f a).run.wp M C Q s
      | .error e => C s ∧ Q (.error e) s) s := by
  rw [run_bind, wp_bind]
  constructor <;> intro hw <;> refine wp_mono hw (fun _ h => h) ?_ <;>
    rintro (e | a) s hc <;> exact fun h => h

theorem wp_guard {c : Prop} [Decidable c] {e : ε} {k : γ → ExceptT ε (Prog S) β}
    {q : ExceptT ε (Prog S) β} (now : C s) (fails : c → Q (.error e) s)
    (passes : ¬ c → q.run.wp M C Q s) : (if c then throw e >>= k else q).run.wp M C Q s := by
  split
  · exact ⟨now, fails ‹_›⟩
  · exact passes ‹_›

theorem wp_check {r : Except ε α} (now : C s) (fails : ∀ e, r = .error e → Q (.error e) s)
    (passes : ∀ a, r = .ok a → (f a).run.wp M C Q s) : (liftM r >>= f).run.wp M C Q s := by
  cases r with
  | error e => exact ⟨now, fails e rfl⟩
  | ok a => exact passes a rfl

theorem wp_run_bind_of (hp : p.run.wp M C (fun r s => match r with
      | .ok a => (f a).run.wp M C Q s
      | .error e => Q (.error e) s) s) : (p >>= f).run.wp M C Q s := by
  rw [wp_run_bind]
  refine wp_mono hp (fun _ h => h) ?_
  rintro (e | a) s hc
  · exact fun h => ⟨hc, h⟩
  · exact fun h => h

end

end Prog

theorem Cuts.after_ok {p : ExceptT ε (Prog S) α} {f : α → ExceptT ε (Prog S) β} {a : α}
    {s s' s'' : σ} (h : Runs M p.run s (.ok a) s') (hc : Cuts M (f a).run s' s'') :
    Cuts M (p >>= f).run s s'' := by
  rw [Prog.run_bind]
  exact .after h hc

namespace Runs

theorem call_error {o : S.Op} {g : S.Ans o → Except ε α} {f : α → ExceptT ε (Prog S) β} {e : ε}
    {s s' : σ} {x : S.Ans o} (step : M.step s o x s') (h : g x = .error e) :
    Runs M (Prog.call o g >>= f).run s (.error e) s' := by
  rw [Prog.run_bind, Prog.run_mk, Prog.op_bind]
  refine .op step ?_
  rw [Prog.ret_bind, h]
  exact .ret _ _

theorem run_bind_ok {p : ExceptT ε (Prog S) α} {f : α → ExceptT ε (Prog S) β} {b : β} {s s'' : σ} :
    Runs M (p >>= f).run s (.ok b) s'' ↔
      ∃ a s', Runs M p.run s (.ok a) s' ∧ Runs M (f a).run s' (.ok b) s'' := by
  rw [Prog.run_bind, bind_iff]
  constructor
  · rintro ⟨e | a, s', hp, hf⟩
    · cases hf
    · exact ⟨a, s', hp, hf⟩
  · rintro ⟨a, s', hp, hf⟩
    exact ⟨.ok a, s', hp, hf⟩

theorem run_bind_error {p : ExceptT ε (Prog S) α} {f : α → ExceptT ε (Prog S) β} {e : ε}
    {s s'' : σ} : Runs M (p >>= f).run s (.error e) s'' ↔ Runs M p.run s (.error e) s'' ∨
      ∃ a s', Runs M p.run s (.ok a) s' ∧ Runs M (f a).run s' (.error e) s'' := by
  rw [Prog.run_bind, bind_iff]
  constructor
  · rintro ⟨e' | a, s', hp, hf⟩
    · cases hf
      exact .inl hp
    · exact .inr ⟨a, s', hp, hf⟩
  · rintro (hp | ⟨a, s', hp, hf⟩)
    · exact ⟨.error e, s'', hp, .ret _ _⟩
    · exact ⟨.ok a, s', hp, hf⟩

end Runs

end HsmRs
