import HsmRs.Lib.Program

/-! # Traces

Programs against an environment that may give any answer to any operation. What a
program has done so far is the list of its operations with their answers.
-/

namespace HsmRs

variable {S : Sig} {α β ε : Type}

/-- Each member satisfies `P` with what is before it. -/
def Stepwise {γ : Type} (P : List γ → γ → Prop) (l : List γ) : Prop :=
  ∀ before a after, l = before ++ a :: after → P before a

section

variable {γ : Type} {P : List γ → γ → Prop} {l l' : List γ} {a : γ}

theorem stepwise_nil : Stepwise P [] := fun before a after h => by
  simp at h

theorem stepwise_concat : Stepwise P (l ++ [a]) ↔ Stepwise P l ∧ P l a := by
  constructor
  · intro h
    refine ⟨fun before b after hl => h before b (after ++ [a]) (by simp [hl]), h l a [] rfl⟩
  · rintro ⟨h, ha⟩ before b after hl
    rcases List.eq_nil_or_concat after with rfl | ⟨after, c, rfl⟩
    · obtain ⟨rfl, hb⟩ := List.append_inj' hl rfl
      cases hb
      exact ha
    · have hl : l ++ [a] = (before ++ b :: after) ++ [c] := by simpa using hl
      exact h before b after (List.append_inj' hl rfl).1

theorem Stepwise.left (h : Stepwise P (l ++ l')) : Stepwise P l :=
  fun before a after hl => h before a (after ++ l') (by simp [hl])

end

/-- An operation and the answer it got. -/
structure Event (S : Sig) where
  op : S.Op
  answer : S.Ans op

/-- The operations answered so far, and the one a run is cut off in. -/
structure Trace (S : Sig) where
  past : List (Event S)
  call : Option S.Op

/-- Every operation gets any answer. -/
def adversary (S : Sig) : Machine S (Trace S) where
  step t o x t' := t' = ⟨t.past ++ [⟨o, x⟩], none⟩
  tear t o t' := t' = ⟨t.past, some o⟩

namespace Prog

/-- The program performs `o` after the operations in `past`. -/
def Makes (p : Prog S α) (past : List (Event S)) (o : S.Op) : Prop :=
  Cuts (adversary S) p ⟨[], none⟩ ⟨past, some o⟩

/-- The program performs the operations in `past` and returns `a`. -/
def Ends (p : Prog S α) (past : List (Event S)) (a : α) : Prop :=
  Runs (adversary S) p ⟨[], none⟩ a ⟨past, none⟩

/-- After `past`, every further operation satisfies `C` and every result `Q`. -/
def Traces (C : List (Event S) → S.Op → Prop) (Q : α → List (Event S) → Prop) (p : Prog S α)
    (past : List (Event S)) : Prop :=
  p.wp (adversary S) (fun t => ∀ o, t.call = some o → C t.past o)
    (fun a t => Q a t.past) ⟨past, none⟩

section

variable {C C' : List (Event S) → S.Op → Prop} {Q Q' : α → List (Event S) → Prop} {p : Prog S α}
  {past : List (Event S)}

theorem Traces.makes {o : S.Op} (h : p.Traces C Q []) (hm : p.Makes past o) : C past o :=
  wp_sound_cuts h hm o rfl

theorem Traces.runs {a : α} {past' : List (Event S)} (h : p.Traces C Q past)
    (hr : Runs (adversary S) p ⟨past, none⟩ a ⟨past', none⟩) : Q a past' := by
  have := wp_sound_runs h hr
  exact this

theorem Traces.ends {a : α} (h : p.Traces C Q []) (he : p.Ends past a) : Q a past := by
  have := wp_sound_runs h he
  exact this

/-- The program can have performed exactly the operations in `past`. -/
def Reaches (p : Prog S α) (past : List (Event S)) : Prop :=
  Cuts (adversary S) p ⟨[], none⟩ ⟨past, none⟩

@[simp] theorem traces_ret {a : α} : (Prog.ret a : Prog S α).Traces C Q past ↔ Q a past := by
  simp [Traces]

@[simp] theorem traces_op {o : S.Op} {k : S.Ans o → Prog S α} :
    (Prog.op o k).Traces C Q past ↔ C past o ∧ ∀ x, (k x).Traces C Q (past ++ [⟨o, x⟩]) := by
  simp [Traces, wp_op, adversary]

/-- Every operation of a run has satisfied `C` with what was before it. -/
theorem Traces.reaches (h : p.Traces C Q []) (hr : p.Reaches past) :
    Stepwise (fun before e => C before e.op) past := by
  have going : ∀ {t t' : Trace S} {q : Prog S α}, Cuts (adversary S) q t t' → t.call = none →
      t'.call = none → q.Traces C Q t.past → Stepwise (fun before e => C before e.op) t.past →
      Stepwise (fun before e => C before e.op) t'.past := by
    intro t t' q hc
    induction hc with
    | here => exact fun _ _ _ hs => hs
    | torn ht =>
      cases ht
      exact fun _ h => (nomatch h)
    | later hs _ ih =>
      cases hs
      intro _ hn hq hs
      obtain ⟨ho, hk⟩ := traces_op.mp hq
      exact ih rfl hn (hk _) (stepwise_concat.mpr ⟨hs, ho⟩)
  exact going hr rfl rfl h stepwise_nil

theorem traces_bind {f : α → Prog S β} {R : β → List (Event S) → Prop} :
    (p >>= f).Traces C R past ↔ p.Traces C (fun a past => (f a).Traces C R past) past := by
  induction p generalizing past with
  | ret a => simp
  | op o k ih => simp only [op_bind, traces_op, ih]

theorem Traces.mono (h : p.Traces C Q past) (hC : ∀ past o, C past o → C' past o)
    (hQ : ∀ a past, Q a past → Q' a past) : p.Traces C' Q' past :=
  wp_mono h (fun _ h o ho => hC _ o (h o ho)) fun a _ _ h => hQ a _ h

theorem Traces.and (h : p.Traces C Q past) (h' : p.Traces C' Q' past) :
    p.Traces (fun past o => C past o ∧ C' past o) (fun a past => Q a past ∧ Q' a past) past :=
  wp_mono (wp_and h h') (fun _ h o ho => ⟨h.1 o ho, h.2 o ho⟩) fun _ _ _ h => h

/-- Conversely, what holds at every end is a postcondition. -/
theorem traces_of_ends (h : ∀ a past, p.Ends past a → Q a past) :
    p.Traces (fun _ _ => True) Q [] := by
  have whole : ∀ {t t' : Trace S} {q : Prog S α} {a : α}, Runs (adversary S) q t a t' →
      t.call = none → t'.call = none := by
    intro t t' q a hr
    induction hr with
    | ret => exact fun h => h
    | op hs _ ih =>
      cases hs
      exact fun _ => ih rfl
  refine wp_of_runs (fun a t hr => h a t.past ?_) fun _ _ _ _ => trivial
  obtain ⟨past, call⟩ := t
  cases whole hr rfl
  exact hr

theorem Within.traces {P : S.Op → Prop} (h : p.Within P) :
    p.Traces (fun _ o => P o) (fun _ _ => True) past := by
  induction p generalizing past with
  | ret a => simp
  | op o k ih => exact traces_op.mpr ⟨h.1, fun x => ih x (h.2 x)⟩

theorem Within.traces_from {P : S.Op → Prop} (h : p.Within P) :
    p.Traces (fun past' o => past <+: past' ∧ P o) (fun _ _ => True) past := by
  have grown : ∀ (q : Prog S α) (past' : List (Event S)), past <+: past' → q.Within P →
      q.Traces (fun past' o => past <+: past' ∧ P o) (fun _ _ => True) past' := by
    intro q
    induction q with
    | ret a => exact fun _ _ _ => traces_ret.mpr trivial
    | op o k ih =>
      exact fun past' hp hq => traces_op.mpr ⟨⟨hp, hq.1⟩, fun x =>
        ih x _ (hp.trans (List.prefix_append _ _)) (hq.2 x)⟩
  exact grown p past (List.prefix_refl _) h

theorem Within.adds {P : S.Op → Prop} (h : p.Within P) :
    p.Traces (fun _ _ => True)
      (fun _ past' => ∃ more, past' = past ++ more ∧ ∀ e ∈ more, P e.op) past := by
  induction p generalizing past with
  | ret a => exact traces_ret.mpr ⟨[], by simp, nofun⟩
  | op o k ih =>
    refine traces_op.mpr ⟨trivial, fun x => (ih x (h.2 x)).mono (fun _ _ h => h) ?_⟩
    rintro _ _ ⟨more, rfl, hm⟩
    refine ⟨⟨o, x⟩ :: more, by simp, fun e he => ?_⟩
    rcases List.mem_cons.mp he with rfl | he
    · exact h.1
    · exact hm e he

/-- A program that is not within `P` can perform an operation that is not. -/
theorem exists_cuts_of_not_within {P : S.Op → Prop} (h : ¬ p.Within P) (past : List (Event S)) :
    ∃ more o, Cuts (adversary S) p ⟨past, none⟩ ⟨past ++ more, some o⟩ ∧ ¬ P o := by
  induction p generalizing past with
  | ret a => exact (h trivial).elim
  | op o k ih =>
    by_cases ho : P o
    · obtain ⟨x, hx⟩ := Classical.not_forall.mp fun hk => h ⟨ho, hk⟩
      obtain ⟨more, o', hc, ho'⟩ := ih x hx (past ++ [⟨o, x⟩])
      exact ⟨⟨o, x⟩ :: more, o', .later rfl (by simpa using hc), ho'⟩
    · exact ⟨[], o, .torn (by simp [adversary]), ho⟩

theorem traces_grow : p.Traces (fun _ _ => True) (fun _ past' => past <+: past') past := by
  induction p generalizing past with
  | ret a => simp
  | op o k ih =>
    exact traces_op.mpr ⟨trivial, fun x => (ih x).mono (fun _ _ h => h)
      fun _ _ h => (List.prefix_append _ _).trans h⟩

/-- Only the runs in which every answer is as assumed count. -/
theorem traces_assume {A : List (Event S) → Event S → Prop}
    (h : Stepwise A past → p.Traces (fun past o => Stepwise A past → C past o)
      (fun a past => Stepwise A past → Q a past) past) :
    p.Traces (fun past o => Stepwise A past → C past o) (fun a past => Stepwise A past → Q a past)
      past := by
  by_cases hp : Stepwise A past
  · exact h hp
  · clear h
    induction p generalizing past with
    | ret a => exact traces_ret.mpr fun h => (hp h).elim
    | op o k ih => exact traces_op.mpr ⟨fun h => (hp h).elim, fun x => ih x fun h => hp h.left⟩

theorem Traces.within {P : S.Op → Prop} (h : p.Traces (fun _ o => P o) Q past) : p.Within P := by
  induction p generalizing past with
  | ret a => trivial
  | op o k ih =>
    obtain ⟨ho, hk⟩ := traces_op.mp h
    exact ⟨ho, fun x => ih x (hk x)⟩

end

section

variable {C : List (Event S) → S.Op → Prop} {past : List (Event S)} {p : ExceptT ε (Prog S) α}
  {f : α → ExceptT ε (Prog S) β} {Q : Except ε β → List (Event S) → Prop}

theorem traces_run_bind : (p >>= f).run.Traces C Q past ↔ p.run.Traces C (fun r past => match r with
      | .ok a => (f a).run.Traces C Q past
      | .error e => Q (.error e) past) past := by
  rw [run_bind, traces_bind]
  constructor <;> intro h <;> refine h.mono (fun _ _ h => h) ?_ <;> rintro (e | a) past
  · exact traces_ret.mp
  · exact fun h => h
  · exact traces_ret.mpr
  · exact fun h => h

theorem traces_call {o : S.Op} {g : S.Ans o → Except ε α} :
    (call o g >>= f).run.Traces C Q past ↔ C past o ∧ ∀ x, match g x with
        | .ok a => (f a).run.Traces C Q (past ++ [⟨o, x⟩])
        | .error e => Q (.error e) (past ++ [⟨o, x⟩]) := by
  rw [traces_run_bind, run_mk, traces_op]
  refine and_congr_right fun _ => forall_congr' fun x => ?_
  rw [traces_ret]

theorem traces_last {o : S.Op} {g : S.Ans o → Except ε α} {Q : Except ε α → List (Event S) → Prop} :
    (call o g).run.Traces C Q past ↔ C past o ∧ ∀ x, Q (g x) (past ++ [⟨o, x⟩]) := by
  simp [call]

theorem traces_bind_assume {A : List (Event S) → Event S → Prop}
    (h : p.run.Traces (fun past o => Stepwise A past → C past o) (fun r past => Stepwise A past →
      match r with
      | .ok a => (f a).run.Traces (fun past o => Stepwise A past → C past o)
          (fun r past => Stepwise A past → Q r past) past
      | .error e => Q (.error e) past) past) :
    (p >>= f).run.Traces (fun past o => Stepwise A past → C past o)
      (fun r past => Stepwise A past → Q r past) past := by
  refine traces_run_bind.mpr (h.mono (fun _ _ h => h) ?_)
  rintro (e | a) past h
  · exact h
  · exact traces_assume h

theorem traces_check {r : Except ε α} : (liftM r >>= f : ExceptT ε (Prog S) β).run.Traces C Q past ↔
    match r with
    | .ok a => (f a).run.Traces C Q past
    | .error e => Q (.error e) past := by
  rw [traces_run_bind, run_liftM, traces_ret]

theorem traces_caught {f : Except ε α → ExceptT ε (Prog S) β} :
    (caught p >>= f).run.Traces C Q past ↔
    p.run.Traces C (fun r past => (f r).run.Traces C Q past) past := by
  rw [traces_run_bind, caught, run_mk, traces_bind]
  simp only [traces_ret]

theorem traces_guard {c : Prop} [Decidable c] {e : ε} {γ : Type} {k : γ → ExceptT ε (Prog S) β}
    {q : ExceptT ε (Prog S) β} : (if c then throw e >>= k else q).run.Traces C Q past ↔
      (c → Q (.error e) past) ∧ (¬ c → q.run.Traces C Q past) := by
  by_cases h : c <;> simp [h]

end

theorem adversary_runs [∀ o, Nonempty (S.Ans o)] (p : Prog S α) (past : List (Event S)) :
    ∃ more a, Runs (adversary S) p ⟨past, none⟩ a ⟨past ++ more, none⟩ := by
  induction p generalizing past with
  | ret a => exact ⟨[], a, by simp⟩
  | op o k ih =>
    obtain ⟨x⟩ : Nonempty (S.Ans o) := inferInstance
    obtain ⟨more, a, hr⟩ := ih x (past ++ [⟨o, x⟩])
    exact ⟨⟨o, x⟩ :: more, a, .op rfl (by simpa using hr)⟩

theorem Makes.resume [∀ o, Nonempty (S.Ans o)] {p : Prog S α} {past : List (Event S)} {o : S.Op}
    (h : p.Makes past o) (x : S.Ans o) :
    ∃ more a, p.Ends (past ++ [⟨o, x⟩] ++ more) a := by
  have resumed : ∀ {q : Prog S α} {t t' : Trace S}, Cuts (adversary S) q t t' → t.call = none →
      t'.call = some o → ∃ more a, Runs (adversary S) q t a
        ⟨t'.past ++ [⟨o, x⟩] ++ more, none⟩ := by
    intro q t t' hc
    induction hc with
    | here => exact fun hn ho => nomatch hn.symm.trans ho
    | torn ht =>
      cases ht
      rintro - ⟨⟩
      obtain ⟨more, a, hr⟩ := adversary_runs (_ : Prog S α) _
      exact ⟨more, a, .op rfl hr⟩
    | later hs _ ih =>
      cases hs
      intro _ ho
      obtain ⟨more, a, hr⟩ := ih rfl ho
      exact ⟨more, a, .op rfl hr⟩
  exact resumed h rfl rfl

/-- Where the operations are performed by programs, the run of a program and that of its
programs keep up with each other as `R` says. -/
theorem traces_compile {T : Sig} {h : (o : S.Op) → Prog T (S.Ans o)}
    {C : List (Event S) → S.Op → Prop} {Q : α → List (Event S) → Prop}
    {C' : List (Event T) → T.Op → Prop} {R : List (Event S) → List (Event T) → Prop}
    (step : ∀ o past past', C past o → R past past' →
      (h o).Traces C' (fun x past' => R (past ++ [⟨o, x⟩]) past') past')
    {p : Prog S α} {past : List (Event S)} {past' : List (Event T)} (hp : p.Traces C Q past)
    (hr : R past past') :
    (p.compile h).Traces C' (fun a past' => ∃ past, R past past' ∧ Q a past) past' := by
  induction p generalizing past past' with
  | ret a => exact traces_ret.mpr ⟨past, hr, traces_ret.mp hp⟩
  | op o k ih =>
    obtain ⟨ho, hk⟩ := traces_op.mp hp
    refine traces_bind.mpr ((step o past past' ho hr).mono (fun _ _ h => h) fun x past' hx => ?_)
    exact ih x (hk x) hx

/-- An answer that is `B` ends the program at once, with an error that is `D`. -/
def Stops (B : Event S → Prop) (D : ε → Prop) (p : ExceptT ε (Prog S) α) : Prop :=
  ∀ past, (∀ e ∈ past, ¬ B e) → p.run.Traces (fun _ _ => True)
    (fun r past => (∃ e ∈ past, B e) → ∃ e, r = .error e ∧ D e) past

namespace Stops

variable {B : Event S → Prop} {D : ε → Prop} {p q : ExceptT ε (Prog S) α}
  {f : α → ExceptT ε (Prog S) β}

theorem bind (h : Stops B D p) (hf : ∀ a, Stops B D (f a)) : Stops B D (p >>= f) := by
  intro past hp
  rw [traces_run_bind]
  refine (h past hp).mono (fun _ _ h => h) ?_
  rintro (e | a) past' h'
  · intro hn
    obtain ⟨_, he, hd⟩ := h' hn
    cases he
    exact ⟨e, rfl, hd⟩
  · have clean : ∀ e ∈ past', ¬ B e := fun e he hb => by
      obtain ⟨_, he, -⟩ := h' ⟨e, he, hb⟩
      cases he
    exact hf a past' clean

theorem run (h : Stops B D p) : p.run.Traces (fun _ _ => True)
    (fun r past => (∃ e ∈ past, B e) → ∃ e, r = .error e ∧ D e) [] :=
  h [] fun _ he => (List.not_mem_nil he).elim

theorem ret {r : Except ε α} : Stops B D (ExceptT.mk (.ret r) : ExceptT ε (Prog S) α) :=
  fun _ hp => traces_ret.mpr fun ⟨e, he, hb⟩ => (hp e he hb).elim

theorem pure {a : α} : Stops B D (Pure.pure a : ExceptT ε (Prog S) α) := ret

theorem throw {e : ε} : Stops B D (MonadExcept.throw e : ExceptT ε (Prog S) α) := ret

theorem check {r : Except ε α} : Stops B D (liftM r : ExceptT ε (Prog S) α) := ret

theorem last {past : List (Event S)} {e : Event S} (hp : ∀ e ∈ past, ¬ B e)
    (h : ∃ x ∈ past ++ [e], B x) : B e := by
  obtain ⟨x, hx, hb⟩ := h
  rcases List.mem_append.mp hx with hx | hx
  · exact (hp x hx hb).elim
  · exact List.mem_singleton.mp hx ▸ hb

theorem call {o : S.Op} {g : S.Ans o → Except ε α}
    (hg : ∀ x, B ⟨o, x⟩ → ∃ e, g x = .error e ∧ D e) :
    Stops B D (Prog.call o g) := fun _ hp =>
  traces_op.mpr ⟨trivial, fun x => traces_ret.mpr fun h => hg x (last hp h)⟩

theorem call_bind {o : S.Op} {g : S.Ans o → Except ε α}
    (hg : ∀ x, B ⟨o, x⟩ → (∃ e, g x = .error e ∧ D e) ∨ ∃ a e, g x = .ok a ∧
      f a = MonadExcept.throw e ∧ D e)
    (hf : ∀ x a, g x = .ok a → ¬ B ⟨o, x⟩ → Stops B D (f a)) :
    Stops B D (Prog.call o g >>= f) := by
  intro past hp
  refine traces_call.mpr ⟨trivial, fun x => ?_⟩
  by_cases hb : B ⟨o, x⟩
  · rcases hg x hb with ⟨e, he, hd⟩ | ⟨a, e, ha, hfa, hd⟩
    · rw [he]
      exact fun _ => ⟨e, rfl, hd⟩
    · rw [ha]
      dsimp only
      rw [hfa]
      exact traces_ret.mpr fun _ => ⟨e, rfl, hd⟩
  · have clean : ∀ e ∈ past ++ [⟨o, x⟩], ¬ B e := fun e he hbe => hb (last hp ⟨e, he, hbe⟩)
    cases hgx : g x with
    | error e => exact fun ⟨e, he, hbe⟩ => (clean e he hbe).elim
    | ok a => exact hf x a hgx hb _ clean

theorem ite {c : Prop} [Decidable c] (hp : Stops B D p) (hq : Stops B D q) :
    Stops B D (if c then p else q) := by
  split
  · exact hp
  · exact hq

end Stops

end Prog

end HsmRs
