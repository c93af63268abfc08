import Mathlib.Data.List.Pairwise
import Mathlib.Logic.Relation
import HsmRs.Lib.Program

/-! # Programs side by side

Any number of programs take turns at single operations on one state. A discipline says
which operations a program may do, knowing what it has been answered so far, and what it
may rely on in return. Programs that keep to a discipline can rely on it however their
operations are interleaved.
-/

namespace HsmRs

variable {S : Sig} {σ τ γ ε α β : Type}

/-- A task, what the program has noted so far, and what is left of it. -/
structure Thread (S : Sig) (τ γ : Type) where
  task : τ
  notes : γ
  rest : Prog S Unit

structure Pool (S : Sig) (σ τ γ : Type) where
  state : σ
  threads : List (Thread S τ γ)

/-- A machine with the programs of its tasks. Programs note the answers they get; operations of
`slow` are done bit by bit; `crash` is what the end of some programs does to the state, given the
notes of those that go on. -/
structure Plant (S : Sig) (σ τ γ : Type) where
  machine : Machine S σ
  program : τ → Prog S Unit
  clear : γ
  note : γ → (o : S.Op) → S.Ans o → γ
  slow : S.Op → Prop
  crash : List γ → σ → σ → Prop

namespace Pool

abbrev Torn (C : Plant S σ τ γ) (ts : List (Thread S τ γ)) : σ → σ → Prop :=
  Relation.ReflTransGen fun s s' => ∃ t ∈ ts, ∃ o k, t.rest = .op o k ∧ C.machine.tear s o s'

/-- One thing that happens: a task is begun, a program does an operation or a bit of one, a
program has ended, or some are cut off. -/
inductive Step (C : Plant S σ τ γ) : Pool S σ τ γ → Pool S σ τ γ → Prop where
  | begin {s : σ} {ts : List (Thread S τ γ)} (c : τ) :
      Step C ⟨s, ts⟩ ⟨s, ⟨c, C.clear, C.program c⟩ :: ts⟩
  | op {s s' : σ} {a b : List (Thread S τ γ)} {c : τ} {g : γ} {o : S.Op} {k : S.Ans o → Prog S Unit}
      {x : S.Ans o} : C.machine.step s o x s' →
      Step C ⟨s, a ++ ⟨c, g, .op o k⟩ :: b⟩ ⟨s', a ++ ⟨c, C.note g o x, k x⟩ :: b⟩
  | bit {s s' : σ} {a b : List (Thread S τ γ)} {c : τ} {g : γ} {o : S.Op}
      {k : S.Ans o → Prog S Unit} :
      C.slow o → C.machine.tear s o s' →
      Step C ⟨s, a ++ ⟨c, g, .op o k⟩ :: b⟩ ⟨s', a ++ ⟨c, g, .op o k⟩ :: b⟩
  | ended {s : σ} {a b : List (Thread S τ γ)} {c : τ} {g : γ} :
      Step C ⟨s, a ++ ⟨c, g, .ret ()⟩ :: b⟩ ⟨s, a ++ b⟩
  | crash {s s' s'' : σ} {ts lost kept : List (Thread S τ γ)} : ts.Perm (lost ++ kept) →
      Torn C lost s s' → C.crash (kept.map Thread.notes) s' s'' → Step C ⟨s, ts⟩ ⟨s'', kept⟩

abbrev Steps (C : Plant S σ τ γ) (legal : Pool S σ τ γ → Prop) : Pool S σ τ γ →
    Pool S σ τ γ → Prop :=
  Relation.ReflTransGen fun p p' => legal p ∧ Step C p p'

end Pool

/-- A thread some operations on, each answered as `run` does it, up to one that it does not do. -/
def Thread.advance (C : Plant S σ τ γ) (run : (o : S.Op) → σ → Option (S.Ans o × σ)) :
    Nat → Thread S τ γ → σ → Thread S τ γ × σ
  | m + 1, ⟨c, g, .op o k⟩, s => match run o s with
    | some (x, s') => advance C run m ⟨c, C.note g o x, k x⟩ s'
    | none => (⟨c, g, .op o k⟩, s)
  | _, t, s => (t, s)

theorem Pool.advance_steps {C : Plant S σ τ γ} {run : (o : S.Op) → σ → Option (S.Ans o × σ)}
    (sound : ∀ o s x s', run o s = some (x, s') → C.machine.step s o x s')
    {legal : Pool S σ τ γ → Prop} {a b : List (Thread S τ γ)}
    (lawful : ∀ s t, legal ⟨s, a ++ t :: b⟩) {m : Nat} {t : Thread S τ γ} {s : σ} :
    Steps C legal ⟨s, a ++ t :: b⟩
      ⟨(t.advance C run m s).2, a ++ (t.advance C run m s).1 :: b⟩ := by
  induction m generalizing t s with
  | zero => exact .refl
  | succ m ih =>
    obtain ⟨c, g, p⟩ := t
    cases p with
    | ret => exact .refl
    | op o k =>
      unfold Thread.advance
      cases hr : run o s with
      | none => exact .refl
      | some y => exact .head ⟨lawful _ _, .op (sound o s y.1 y.2 hr)⟩ ih

/-! ## Keeping to what is permitted -/

/-- Whatever it is answered, the program does what its notes permit, and ends in `Q`. -/
def Prog.Careful (permits : γ → S.Op → Prop) (note : γ → (o : S.Op) → S.Ans o → γ)
    (Q : γ → α → Prop) : γ → Prog S α → Prop
  | g, .ret a => Q g a
  | g, .op o k => permits g o ∧ ∀ x, Careful permits note Q (note g o x) (k x)

namespace Prog.Careful

variable {permits : γ → S.Op → Prop} {note : γ → (o : S.Op) → S.Ans o → γ} {Q Q' : γ → α → Prop}
  {g : γ}

theorem mono {p : Prog S α} (h : p.Careful permits note Q g) (hQ : ∀ g a, Q g a → Q' g a) :
    p.Careful permits note Q' g := by
  induction p generalizing g with
  | ret a => exact hQ g a h
  | op o k ih => exact ⟨h.1, fun x => ih x (h.2 x)⟩

theorem yielding {p : Prog S α} (h : p.Careful permits note Q g) :
    p.Careful permits note (fun g a => Q g a ∧ p.Yields (fun _ _ => True) a) g := by
  induction p generalizing g with
  | ret a => exact ⟨h, rfl⟩
  | op o k ih =>
    exact ⟨h.1, fun x => (ih x (h.2 x)).mono fun g a ⟨hq, ha⟩ => ⟨hq, x, trivial, ha⟩⟩

theorem bind {Q : γ → β → Prop} {p : Prog S α} {f : α → Prog S β}
    (h : p.Careful permits note (fun g a => (f a).Careful permits note Q g) g) :
    (p >>= f).Careful permits note Q g := by
  induction p generalizing g with
  | ret a => exact h
  | op o k ih => exact ⟨h.1, fun x => ih x (h.2 x)⟩

theorem run_bind {Q : γ → Except ε β → Prop} {p : ExceptT ε (Prog S) α}
    {f : α → ExceptT ε (Prog S) β}
    (h : p.run.Careful permits note (fun g r => match r with
      | .ok a => (f a).run.Careful permits note Q g
      | .error e => Q g (.error e)) g) :
    (p >>= f).run.Careful permits note Q g := by
  rw [Prog.run_bind]
  refine bind (h.mono fun g r hr => ?_)
  cases r with
  | ok a => exact hr
  | error e => exact hr

/-- Operations that keep a property of the notes and are permitted where it holds. -/
theorem of_within {P : S.Op → Prop} {I : γ → Prop} (permitted : ∀ g o, P o → I g → permits g o)
    (kept : ∀ g o x, P o → I g → I (note g o x)) {p : Prog S α} (hp : p.Within P) (hI : I g)
    (hQ : ∀ g a, I g → Q g a) : p.Careful permits note Q g := by
  induction p generalizing g with
  | ret a => exact hQ g a hI
  | op o k ih => exact ⟨permitted g o hp.1 hI, fun x => ih x (hp.2 x) (kept g o x hp.1 hI)⟩

end Prog.Careful

/-! ## Disciplines -/

/-- What the program of a task may do, and what it may rely on while the others keep to the
same; `apart` is what distinguishes two programs, `allowed` what is asked of them besides. -/
structure Discipline (C : Plant S σ τ γ) where
  permits : τ → γ → S.Op → Prop
  relies : τ → γ → σ → Prop
  apart : τ → γ → τ → γ → Prop
  allowed : τ → γ → τ → γ → Prop
  symm : ∀ {c g c' g'}, apart c g c' g' → apart c' g' c g
  allowed_symm : ∀ {c g c' g'}, allowed c g c' g' → allowed c' g' c g
  careful : ∀ c, (C.program c).Careful (permits c) C.note (fun _ _ => True) C.clear
  clear : ∀ c s, relies c C.clear s
  clear_apart : ∀ c c' g', apart c C.clear c' g'
  own : ∀ {c g o x s s'}, permits c g o → relies c g s → C.machine.step s o x s' →
    relies c (C.note g o x) s'
  bit : ∀ {c g o s s'}, C.slow o → permits c g o → relies c g s →
    C.machine.tear s o s' → relies c g s'
  others : ∀ {c g c' g' o s s'}, permits c g o → relies c' g' s → apart c g c' g' →
    allowed c g c' g' → (C.machine.tear s o s' ∨ ∃ x, C.machine.step s o x s') → relies c' g' s'
  crash : ∀ {gs c g s s'}, g ∈ gs → relies c g s → C.crash gs s s' → relies c g s'
  parted : ∀ {c g c' g' o x s s'}, permits c g o → relies c g s → relies c' g' s → apart c g c' g' →
    C.machine.step s o x s' → apart c (C.note g o x) c' g'

namespace Discipline

variable {C : Plant S σ τ γ} (D : Discipline C)

/-- Any two programs are allowed side by side. -/
def Legal (p : Pool S σ τ γ) : Prop :=
  p.threads.Pairwise fun t t' => D.allowed t.task t.notes t'.task t'.notes

/-- Every program of the pool keeps to the discipline. -/
structure Orderly (p : Pool S σ τ γ) : Prop where
  careful : ∀ t ∈ p.threads, t.rest.Careful (D.permits t.task) C.note (fun _ _ => True) t.notes
  relies : ∀ t ∈ p.threads, D.relies t.task t.notes p.state
  apart : p.threads.Pairwise fun t t' => D.apart t.task t.notes t'.task t'.notes

theorem mem_around {a b : List (Thread S τ γ)} {t x : Thread S τ γ} :
    x ∈ a ++ t :: b ↔ x = t ∨ x ∈ a ++ b := by
  simp only [List.mem_append, List.mem_cons]
  exact or_left_comm

variable {D} {p p' : Pool S σ τ γ} {s s' : σ} {a b : List (Thread S τ γ)} {t t' : Thread S τ γ}

theorem Orderly.empty (s : σ) : D.Orderly ⟨s, []⟩ := by
  refine ⟨fun _ h => ?_, fun _ h => ?_, .nil⟩ <;> cases h

/-- The program of one thread goes on and the others can still rely on what they relied on. -/
theorem Orderly.around (h : D.Orderly ⟨s, a ++ t :: b⟩)
    (careful : t'.rest.Careful (D.permits t'.task) C.note (fun _ _ => True) t'.notes)
    (relies : D.relies t'.task t'.notes s')
    (others : ∀ x ∈ a ++ b, D.relies x.task x.notes s' ∧ D.apart t'.task t'.notes x.task x.notes) :
    D.Orderly ⟨s', a ++ t' :: b⟩ := by
  have pairs := (List.pairwise_cons.mp ((List.pairwise_middle D.symm).mp h.apart)).2
  refine ⟨fun x hx => ?_, fun x hx => ?_, (List.pairwise_middle D.symm).mpr ?_⟩
  · rcases mem_around.mp hx with rfl | hx
    · exact careful
    · exact h.careful x (mem_around.mpr (.inr hx))
  · rcases mem_around.mp hx with rfl | hx
    · exact relies
    · exact (others x hx).1
  · exact List.pairwise_cons.mpr ⟨fun x hx => (others x hx).2, pairs⟩

theorem Orderly.beside (h : D.Orderly ⟨s, a ++ t :: b⟩) (hl : D.Legal ⟨s, a ++ t :: b⟩) :
    ∀ x ∈ a ++ b, D.apart t.task t.notes x.task x.notes ∧
      D.allowed t.task t.notes x.task x.notes := by
  intro x hx
  have apart := (List.pairwise_cons.mp ((List.pairwise_middle D.symm).mp h.apart)).1
  have allowed := (List.pairwise_cons.mp ((List.pairwise_middle D.allowed_symm).mp hl)).1
  exact ⟨apart x hx, allowed x hx⟩

theorem Orderly.between (h : D.Orderly p) (hl : D.Legal p) (ht : t ∈ p.threads)
    (ht' : t' ∈ p.threads) (hn : t ≠ t') : D.apart t.task t.notes t'.task t'.notes ∧
      D.allowed t.task t.notes t'.task t'.notes := by
  have : Std.Symm fun t t' : Thread S τ γ => D.apart t.task t.notes t'.task t'.notes :=
    ⟨fun _ _ => D.symm⟩
  have : Std.Symm fun t t' : Thread S τ γ => D.allowed t.task t.notes t'.task t'.notes :=
    ⟨fun _ _ => D.allowed_symm⟩
  exact ⟨h.apart.forall ht ht' hn, hl.forall ht ht' hn⟩

/-- The programs that go on can rely on what they relied on while the others are cut off. -/
theorem Orderly.torn {ts lost kept : List (Thread S τ γ)} (h : D.Orderly ⟨s, ts⟩)
    (hl : D.Legal ⟨s, ts⟩) (hp : ts.Perm (lost ++ kept)) (ht : Pool.Torn C lost s s')
    (hx : t ∈ kept) : D.relies t.task t.notes s' := by
  have apart := (List.pairwise_append.mp ((hp.pairwise_iff D.symm).mp h.apart)).2.2
  have allowed := (List.pairwise_append.mp ((hp.pairwise_iff D.allowed_symm).mp hl)).2.2
  induction ht with
  | refl => exact h.relies t (hp.mem_iff.mpr (List.mem_append_right _ hx))
  | tail _ ht ih =>
    obtain ⟨t', ht', o, k, hr, ht⟩ := ht
    have careful := h.careful t' (hp.mem_iff.mpr (List.mem_append_left _ ht'))
    rw [hr] at careful
    exact D.others careful.1 ih (apart t' ht' t hx) (allowed t' ht' t hx) (.inl ht)

theorem Orderly.step (h : D.Orderly p) (hl : D.Legal p) (hs : Pool.Step C p p') : D.Orderly p' := by
  cases hs with
  | crash hp ht hc =>
    refine ⟨fun x hx => h.careful x (hp.mem_iff.mpr (List.mem_append_right _ hx)), fun x hx => ?_,
      (List.pairwise_append.mp ((hp.pairwise_iff D.symm).mp h.apart)).2.1⟩
    exact D.crash (List.mem_map_of_mem hx) (h.torn hl hp ht hx) hc
  | @ended s a b c g =>
    refine ⟨fun x hx => h.careful x (mem_around.mpr (.inr hx)),
      fun x hx => h.relies x (mem_around.mpr (.inr hx)), ?_⟩
    exact (List.pairwise_cons.mp ((List.pairwise_middle D.symm).mp h.apart)).2
  | @begin s ts c =>
    refine ⟨fun x hx => ?_, fun x hx => ?_, List.pairwise_cons.mpr
      ⟨fun x _ => D.clear_apart _ _ _, h.apart⟩⟩
    · rcases List.mem_cons.mp hx with rfl | hx
      · exact D.careful c
      · exact h.careful x hx
    · rcases List.mem_cons.mp hx with rfl | hx
      · exact D.clear c s
      · exact h.relies x hx
  | @op s s' a b c g o k x hs =>
    obtain ⟨permitted, careful⟩ := h.careful _ (mem_around.mpr (.inl rfl))
    have relies := h.relies _ (mem_around.mpr (.inl rfl))
    refine h.around (careful x) (D.own permitted relies hs) fun y hy => ?_
    obtain ⟨apart, allowed⟩ := h.beside hl y hy
    have relies' := h.relies y (mem_around.mpr (.inr hy))
    exact ⟨D.others permitted relies' apart allowed (.inr ⟨x, hs⟩),
      D.parted permitted relies relies' apart hs⟩
  | @bit s s' a b c g o k slow ht =>
    have careful := h.careful _ (mem_around.mpr (.inl rfl))
    have relies := h.relies _ (mem_around.mpr (.inl rfl))
    refine h.around careful (D.bit slow careful.1 relies ht) fun y hy => ?_
    obtain ⟨apart, allowed⟩ := h.beside hl y hy
    exact ⟨D.others careful.1 (h.relies y (mem_around.mpr (.inr hy))) apart
      allowed (.inl ht), apart⟩

theorem Orderly.steps (h : D.Orderly p) (hs : Pool.Steps C D.Legal p p') : D.Orderly p' := by
  induction hs with
  | refl => exact h
  | tail _ hs ih => exact ih.step hs.1 hs.2

end Discipline

end HsmRs
