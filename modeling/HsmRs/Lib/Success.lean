import Mathlib.Logic.Relation
import HsmRs.Lib.Program

/-! # Programs that succeed

Total correctness of fallible programs on a machine: whatever the machine answers, the
program ends well, and a postcondition holds of its result and of where it ends. A
program endures where it also leaves a given condition wherever it is cut off. Started
again after each cut, it then ends well in the end.
-/

namespace HsmRs

variable {S : Sig} {σ ε α β γ τ : Type} {M : Machine S σ}

/-- Every run of `p` from `s` ends well, `Q` holds of its result and of where it ends, and `C` holds
wherever it is cut off. -/
def Endures (M : Machine S σ) (C : σ → Prop) (p : ExceptT ε (Prog S) α) (s : σ)
    (Q : α → σ → Prop) : Prop :=
  p.run.wp M C (fun r s' => ∃ a, r = .ok a ∧ Q a s') s

/-- Every run of `p` from `s` ends well, and `Q` holds of its result and of where it ends. -/
def Succeeds (M : Machine S σ) (p : ExceptT ε (Prog S) α) (s : σ) (Q : α → σ → Prop) : Prop :=
  p.run.wp M (fun _ => True) (fun r s' => ∃ a, r = .ok a ∧ Q a s') s

def tried (p : Prog S (Except ε α × τ)) : ExceptT ε (Prog S) (α × τ) :=
  ExceptT.mk (p >>= fun x => .ret (x.1.map (·, x.2)))

namespace Endures

variable {p : ExceptT ε (Prog S) α} {f : α → ExceptT ε (Prog S) β} {s s' : σ} {C : σ → Prop}
  {Q : β → σ → Prop}

theorem runs {r : Except ε β} {p : ExceptT ε (Prog S) β} (h : Endures M C p s Q)
    (hr : Runs M p.run s r s') : ∃ b, r = .ok b ∧ Q b s' :=
  Prog.wp_sound_runs h hr

theorem cuts {P : α → σ → Prop} (h : Endures M C p s P) (hc : Cuts M p.run s s') : C s' :=
  Prog.wp_sound_cuts h hc

theorem now {P : α → σ → Prop} (h : Endures M C p s P) : C s := Prog.wp_now h

theorem mono {p : ExceptT ε (Prog S) β} {C' : σ → Prop} {Q' : β → σ → Prop} (h : Endures M C p s Q)
    (hC : ∀ s', C s' → C' s') (hQ : ∀ b s', Q b s' → Q' b s') : Endures M C' p s Q' := by
  refine Prog.wp_mono h hC ?_
  rintro r s' - ⟨b, rfl, hb⟩
  exact ⟨b, rfl, hQ b s' hb⟩

theorem kept {p : ExceptT ε (Prog S) β} (h : Endures M C p s Q) :
    Endures M C p s fun b s' => Q b s' ∧ C s' := by
  refine Prog.wp_mono h (fun _ h => h) ?_
  rintro r s' now ⟨b, rfl, hb⟩
  exact ⟨b, rfl, hb, now⟩

theorem of_succeeds {p : ExceptT ε (Prog S) β} (h : Succeeds M p s Q)
    (hC : p.run.wp M C (fun _ _ => True) s) : Endures M C p s Q :=
  Prog.wp_mono (Prog.wp_and h hC) (fun _ h => h.2) fun _ _ _ h => h.1

theorem pure {b : β} (now : C s) (h : Q b s) :
    Endures M C (Pure.pure b : ExceptT ε (Prog S) β) s Q := ⟨now, b, rfl, h⟩

theorem bind (h : Endures M C p s fun a s' => Endures M C (f a) s' Q) :
    Endures M C (p >>= f) s Q := by
  apply Prog.wp_run_bind_of
  refine Prog.wp_mono h (fun _ h => h) ?_
  rintro r s' - ⟨a, rfl, ha⟩
  exact ha

theorem check {r : Except ε α} {a : α} (hr : r = .ok a) (h : Endures M C (f a) s Q) :
    Endures M C (liftM r >>= f : ExceptT ε (Prog S) β) s Q := by
  subst hr
  exact h

theorem guard {c : Prop} [Decidable c] {e : ε} {k : γ → ExceptT ε (Prog S) β}
    {q : ExceptT ε (Prog S) β} (hc : ¬ c) (h : Endures M C q s Q) :
    Endures M C (if c then throw e >>= k else q) s Q := by
  rw [if_neg hc]
  exact h

end Endures

namespace Succeeds

variable {p : ExceptT ε (Prog S) α} {f : α → ExceptT ε (Prog S) β} {s s' : σ} {Q : β → σ → Prop}

theorem runs {r : Except ε β} {p : ExceptT ε (Prog S) β} (h : Succeeds M p s Q)
    (hr : Runs M p.run s r s') : ∃ b, r = .ok b ∧ Q b s' := Endures.runs h hr

theorem mono {p : ExceptT ε (Prog S) β} {Q' : β → σ → Prop} (h : Succeeds M p s Q)
    (hQ : ∀ b s', Q b s' → Q' b s') : Succeeds M p s Q' := Endures.mono h (fun _ h => h) hQ

theorem pure {b : β} (h : Q b s) : Succeeds M (Pure.pure b : ExceptT ε (Prog S) β) s Q :=
  Endures.pure trivial h

theorem bind (h : Succeeds M p s fun a s' => Succeeds M (f a) s' Q) : Succeeds M (p >>= f) s Q :=
  Endures.bind h

theorem check {r : Except ε α} {a : α} (hr : r = .ok a) (h : Succeeds M (f a) s Q) :
    Succeeds M (liftM r >>= f : ExceptT ε (Prog S) β) s Q := Endures.check hr h

theorem guard {c : Prop} [Decidable c] {e : ε} {k : γ → ExceptT ε (Prog S) β}
    {q : ExceptT ε (Prog S) β} (hc : ¬ c) (h : Succeeds M q s Q) :
    Succeeds M (if c then throw e >>= k else q) s Q := Endures.guard hc h

theorem of_ok {r : Except ε β} {b : β} (hr : r = .ok b) (h : Q b s) :
    Succeeds M (liftM r : ExceptT ε (Prog S) β) s Q := by
  subst hr
  exact ⟨trivial, b, rfl, h⟩

end Succeeds

section

variable {T : Sig} {h : (o : S.Op) → τ → Prog T (S.Ans o × τ)} {N : Machine T σ} {C : σ → Prop}
  {p : ExceptT ε (Prog S) α} {f : α → ExceptT ε (Prog S) β} {t : τ} {s : σ}

theorem wp_tried {q : Prog T (Except ε α × τ)} {R : Except ε (α × τ) → σ → Prop} :
    (tried q).run.wp N C R s ↔ q.wp N C (fun x s' => R (x.1.map (·, x.2)) s') s := by
  unfold tried
  rw [Prog.run_mk, Prog.wp_bind]
  constructor <;> intro hw <;> refine Prog.wp_mono hw (fun _ h => h) ?_
  · exact fun x s' _ h => h.2
  · exact fun x s' now h => ⟨now, h⟩

theorem endures_tried {q : Prog T (Except ε α × τ)} {Q : α × τ → σ → Prop} :
    Endures N C (tried q) s Q ↔ q.wp N C (fun x s' => ∃ a, x.1 = .ok a ∧ Q (a, x.2) s') s := by
  rw [Endures, wp_tried]
  constructor <;> intro hw <;> refine Prog.wp_mono hw (fun _ h => h) ?_
  · rintro ⟨e | a, t⟩ s' - ⟨y, hy, hq⟩
    · cases hy
    · cases hy
      exact ⟨a, rfl, hq⟩
  · rintro ⟨_, t⟩ s' _ ⟨a, rfl, hq⟩
    exact ⟨(a, t), rfl, hq⟩

theorem succeeds_tried {q : Prog T (Except ε α × τ)} {Q : α × τ → σ → Prop} :
    Succeeds N (tried q) s Q ↔ q.wp N (fun _ => True)
      (fun x s' => ∃ a, x.1 = .ok a ∧ Q (a, x.2) s') s := endures_tried

theorem wp_interp_bind {R : Except ε (β × τ) → σ → Prop}
    (hp : Endures N C (tried (p.run.interp h t)) s fun x s' =>
      (tried ((f x.1).run.interp h x.2)).run.wp N C R s') :
    (tried ((p >>= f).run.interp h t)).run.wp N C R s := by
  rw [endures_tried] at hp
  rw [wp_tried, Prog.run_bind, Prog.interp_bind, Prog.wp_bind]
  refine Prog.wp_mono hp (fun _ h => h) ?_
  rintro ⟨_, t⟩ s' - ⟨a, rfl, ha⟩
  exact wp_tried.mp ha

theorem wp_interp_error {R : Except ε (β × τ) → σ → Prop}
    (hp : (tried (p.run.interp h t)).run.wp N C
      (fun r s' => ∃ e, r = .error e ∧ R (.error e) s') s) :
    (tried ((p >>= f).run.interp h t)).run.wp N C R s := by
  rw [wp_tried] at hp ⊢
  rw [Prog.run_bind, Prog.interp_bind, Prog.wp_bind]
  refine Prog.wp_mono hp (fun _ h => h) ?_
  rintro ⟨e | a, t⟩ s' now ⟨_, he, hr⟩
  · cases he
    exact ⟨now, hr⟩
  · cases he

/-- A handled program endures when its parts do, one after the other. -/
theorem Endures.interp_bind {Q : β × τ → σ → Prop}
    (hp : Endures N C (tried (p.run.interp h t)) s fun x s' =>
      Endures N C (tried ((f x.1).run.interp h x.2)) s' Q) :
    Endures N C (tried ((p >>= f).run.interp h t)) s Q := wp_interp_bind hp

theorem wp_interp_op {o : S.Op} {g : S.Ans o → Except ε α} {R : Except ε (α × τ) → σ → Prop}
    (ho : (h o t).wp N C (fun x s' => R ((g x.1).map (·, x.2)) s') s) :
    (tried ((Prog.call o g).run.interp h t)).run.wp N C R s := by
  rw [wp_tried, Prog.run_mk, Prog.interp_op, Prog.wp_bind]
  exact Prog.wp_mono ho (fun _ h => h) fun x s' now hq => ⟨now, hq⟩

theorem Endures.interp_op {o : S.Op} {g : S.Ans o → Except ε α} {Q : α × τ → σ → Prop}
    (ho : (h o t).wp N C (fun x s' => ∃ a, g x.1 = .ok a ∧ Q (a, x.2) s') s) :
    Endures N C (tried ((Prog.call o g).run.interp h t)) s Q := by
  refine wp_interp_op (Prog.wp_mono ho (fun _ h => h) ?_)
  rintro ⟨x, t⟩ s' - ⟨a, ha, hq⟩
  exact ⟨(a, t), by rw [ha]; rfl, hq⟩

end

/-! ## Starting again -/

/-- Where `p` is started after it has been cut off any number of times, and `again` has been done
each time. -/
def Restarted (M : Machine S σ) (again : σ → σ) (p : Prog S α) : σ → σ → Prop :=
  Relation.ReflTransGen fun s s' => ∃ s₁, Cuts M p s s₁ ∧ s' = again s₁

/-- What every cut leaves is there whenever the program is started again. -/
theorem Restarted.keeps {p : Prog S α} {again : σ → σ} {I : σ → Prop} {s s' : σ}
    (h : Restarted M again p s s') (step : ∀ s s', I s → Cuts M p s s' → I (again s'))
    (now : I s) : I s' := by
  induction h with
  | refl => exact now
  | tail _ hs ih =>
    obtain ⟨s₁, hc, rfl⟩ := hs
    exact step _ _ ih hc

/-- The first `n` operations of `p`, with the result where `p` has come to its end. -/
def Prog.upTo : Nat → Prog S α → Prog S (Option α)
  | _, .ret a => .ret (some a)
  | 0, .op _ _ => .ret none
  | n + 1, .op o k => .op o fun x => (k x).upTo n

theorem Cuts.of_upTo {p : Prog S α} {n : Nat} {r : Option α} {s s' : σ}
    (h : Runs M (p.upTo n) s r s') : Cuts M p s s' := by
  induction p generalizing n s with
  | ret a =>
    cases n <;> obtain ⟨rfl, rfl⟩ := Runs.ret_iff.mp h <;> exact .here _ _
  | op o k ih =>
    cases n with
    | zero =>
      obtain ⟨rfl, rfl⟩ := Runs.ret_iff.mp h
      exact .here _ _
    | succ n =>
      obtain ⟨x, s₁, step, rest⟩ := Runs.op_iff.mp h
      exact .later step (ih x rest)

end HsmRs
