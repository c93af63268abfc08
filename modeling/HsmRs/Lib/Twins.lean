import HsmRs.Lib.Crash

/-! # Two runs side by side

Programs whose operations correspond, with answers that agree, on disks that hold the
same files up to a relation on contents. Whatever happens in a run of the one can happen
in a run of the other.
-/

namespace HsmRs

/-! ## Corresponding programs -/

section

variable {S : Sig} {σ ε α β γ δ : Type}

/-- Which operations correspond, and which of their answers. -/
abbrev Coupling (S : Sig) := (o o' : S.Op) → (S.Ans o → S.Ans o' → Prop) → Prop

/-- Programs that do the same and return related values, as long as they are answered the
same. -/
inductive Prog.Twin (C : Coupling S) (R : α → β → Prop) : Prog S α → Prog S β → Prop where
  | ret {a : α} {b : β} : R a b → Twin C R (.ret a) (.ret b)
  | op {o o' : S.Op} {A : S.Ans o → S.Ans o' → Prop} {k : S.Ans o → Prog S α}
      {k' : S.Ans o' → Prog S β} : C o o' A → (∀ x y, A x y → Twin C R (k x) (k' y)) →
      Twin C R (.op o k) (.op o' k')

/-- Corresponding operations lead from related states to related states. -/
structure Machine.Couples (M : Machine S σ) (C : Coupling S) (D : σ → σ → Prop) : Prop where
  step : ∀ {o o' A s t x s'}, C o o' A → D s t → M.step s o x s' →
    ∃ y t', M.step t o' y t' ∧ A x y ∧ D s' t'
  tear : ∀ {o o' A s t s'}, C o o' A → D s t → M.tear s o s' → ∃ t', M.tear t o' t' ∧ D s' t'

/-- Both fail with the same error, or both succeed with related values. -/
def Agree (R : α → β → Prop) : Except ε α → Except ε β → Prop
  | .ok a, .ok b => R a b
  | .error e, .error e' => e = e'
  | _, _ => False

theorem Agree.eq {x y : Except ε α} (h : Agree Eq x y) : x = y := by
  cases x <;> cases y
  · exact congrArg _ h
  · exact h.elim
  · exact h.elim
  · exact congrArg _ h

theorem Agree.refl {R : α → α → Prop} (hR : ∀ a, R a a) (x : Except ε α) : Agree R x x := by
  cases x with
  | ok a => exact hR a
  | error e => exact Eq.refl e

theorem Agree.bind {R : α → β → Prop} {R' : γ → δ → Prop} {x : Except ε α} {y : Except ε β}
    (h : Agree R x y) {f : α → Except ε γ} {g : β → Except ε δ}
    (hf : ∀ a b, R a b → Agree R' (f a) (g b)) : Agree R' (x >>= f) (y >>= g) := by
  cases x <;> cases y
  · exact h
  · exact h.elim
  · exact h.elim
  · exact hf _ _ h

theorem Agree.guard {R : γ → δ → Prop} {c c' : Prop} [Decidable c] [Decidable c'] {e : ε}
    {k : α → Except ε γ} {k' : β → Except ε δ} {x : Except ε γ} {y : Except ε δ} (hc : c ↔ c')
    (h : ¬ c → Agree R x y) :
    Agree R (if c then throw e >>= k else x) (if c' then throw e >>= k' else y) := by
  by_cases hn : c
  · rw [if_pos hn, if_pos (hc.mp hn)]
    exact Eq.refl e
  · rw [if_neg hn, if_neg (hn ∘ hc.mpr)]
    exact h hn

theorem Agree.self (x : Except ε α) : Agree (fun a b => a = b ∧ x = .ok a) x x := by
  cases x with
  | ok a => exact ⟨rfl, rfl⟩
  | error e => exact Eq.refl e

namespace Prog.Twin

variable {M : Machine S σ} {C : Coupling S} {D : σ → σ → Prop} {R : α → β → Prop}
  {R' : γ → δ → Prop} {p : Prog S α} {q : Prog S β} {s s' t : σ}

theorem runs (h : p.Twin C R q) (hM : M.Couples C D) (hd : D s t) {a : α}
    (hr : Runs M p s a s') : ∃ b t', Runs M q t b t' ∧ R a b ∧ D s' t' := by
  induction h generalizing s t with
  | ret hR =>
    obtain ⟨rfl, rfl⟩ := Runs.ret_iff.mp hr
    exact ⟨_, t, .ret _ t, hR, hd⟩
  | op hC _ ih =>
    obtain ⟨x, s₁, hs, hr⟩ := Runs.op_iff.mp hr
    obtain ⟨y, t₁, ht, hA, hd₁⟩ := hM.step hC hd hs
    obtain ⟨b, t', hr', hR, hd'⟩ := ih x y hA hd₁ hr
    exact ⟨b, t', .op ht hr', hR, hd'⟩

theorem cuts (h : p.Twin C R q) (hM : M.Couples C D) (hd : D s t) (hc : Cuts M p s s') :
    ∃ t', Cuts M q t t' ∧ D s' t' := by
  induction h generalizing s t with
  | ret hR =>
    cases hc
    exact ⟨t, .here _ t, hd⟩
  | op hC _ ih =>
    cases hc with
    | here => exact ⟨t, .here _ t, hd⟩
    | torn hs =>
      obtain ⟨t', ht, hd'⟩ := hM.tear hC hd hs
      exact ⟨t', .torn ht, hd'⟩
    | later hs hc =>
      obtain ⟨y, t₁, ht, hA, hd₁⟩ := hM.step hC hd hs
      obtain ⟨t', hc', hd'⟩ := ih _ y hA hd₁ hc
      exact ⟨t', .later ht hc', hd'⟩

theorem bind (h : p.Twin C R q) {f : α → Prog S γ} {g : β → Prog S δ}
    (hf : ∀ a b, R a b → (f a).Twin C R' (g b)) : (p >>= f).Twin C R' (q >>= g) := by
  induction h with
  | ret hR => exact hf _ _ hR
  | op hC _ ih => exact .op hC fun x y hA => ih x y hA

theorem mono {Q : α → β → Prop} (h : p.Twin C R q) (hQ : ∀ a b, R a b → Q a b) :
    p.Twin C Q q := by
  induction h with
  | ret hR => exact .ret (hQ _ _ hR)
  | op hC _ ih => exact .op hC ih

theorem refl {P : S.Op → Prop} (hC : ∀ o, P o → C o o Eq) {p : Prog S α} (hp : p.Within P) :
    p.Twin C Eq p := by
  induction p with
  | ret a => exact .ret rfl
  | op o k ih =>
    refine .op (hC o hp.1) ?_
    rintro x _ rfl
    exact ih x (hp.2 x)

/-! ### Fallible programs -/

variable {f : α → ExceptT ε (Prog S) γ} {g : β → ExceptT ε (Prog S) δ}

theorem run_bind {p : ExceptT ε (Prog S) α} {q : ExceptT ε (Prog S) β}
    (h : p.run.Twin C (Agree R) q.run) (hf : ∀ a b, R a b → (f a).run.Twin C (Agree R') (g b).run) :
    (p >>= f).run.Twin C (Agree R') (q >>= g).run := by
  rw [Prog.run_bind, Prog.run_bind]
  refine h.bind ?_
  rintro (e | a) (e' | b) hR
  · exact .ret hR
  · exact hR.elim
  · exact hR.elim
  · exact hf a b hR

theorem run_pure {a : γ} {b : δ} (h : R' a b) :
    (pure a : ExceptT ε (Prog S) γ).run.Twin C (Agree R') (pure b : ExceptT ε (Prog S) δ).run :=
  .ret h

theorem run_throw {e : ε} :
    (throw e : ExceptT ε (Prog S) γ).run.Twin C (Agree R') (throw e : ExceptT ε (Prog S) δ).run :=
  .ret (Eq.refl e)

theorem run_guard {c c' : Prop} [Decidable c] [Decidable c'] {e : ε} {k : α → ExceptT ε (Prog S) γ}
    {k' : β → ExceptT ε (Prog S) δ} {q : ExceptT ε (Prog S) γ} {q' : ExceptT ε (Prog S) δ}
    (hc : c ↔ c') (h : ¬ c → q.run.Twin C (Agree R') q'.run) :
    (if c then throw e >>= k else q).run.Twin C (Agree R')
      (if c' then throw e >>= k' else q').run := by
  by_cases hn : c
  · rw [if_pos hn, if_pos (hc.mp hn)]
    exact run_throw
  · rw [if_neg hn, if_neg (hn ∘ hc.mpr)]
    exact h hn

end Prog.Twin

end

/-! ## Disks that are alike -/

section

variable {ν β : Type} {E : β → β → Prop}

def File.Alike (E : β → β → Prop) (f g : File β) : Prop :=
  E f.content g.content ∧ f.synced = g.synced

/-- The same directories, locks and names, and files with related contents. -/
structure Disk.Alike (E : β → β → Prop) (s t : Disk ν β) : Prop where
  dir : t.dir = s.dir
  file : ∀ d n, Option.Rel (File.Alike E) (s.file d n) (t.file d n)
  safeDir : t.safeDir = s.safeDir
  safeFile : ∀ d n, Option.Rel (File.Alike E) (s.safeFile d n) (t.safeFile d n)
  locked : t.locked = s.locked
  issued : t.issued = s.issued

/-- Operations that correspond when contents are related. -/
inductive FsOp.Coupled (E : β → β → Prop) : Coupling (fsSig ν β) where
  | same {o : FsOp ν β} : (∀ d n, o ≠ .read d n) → Coupled E o o Eq
  | read {d : Dir} {n : ν} : Coupled E (.read d n) (.read d n) (Agree E)
  | create {d : Dir} {n : ν} {c c' : β} : E c c' → Coupled E (.create d n c) (.create d n c') Eq

namespace Disk.Alike

variable {s s' t : Disk ν β} {d : Dir} {n : ν}

theorem refl (hE : ∀ c, E c c) (s : Disk ν β) : s.Alike E s := by
  have rel : ∀ f : Option (File β), Option.Rel (File.Alike E) f f := fun f => by
    cases f with
    | none => exact .none
    | some f => exact .some ⟨hE _, rfl⟩
  exact ⟨rfl, fun _ _ => rel _, rfl, fun _ _ => rel _, rfl, rfl⟩

theorem lookup (h : s.Alike E t) (d : Dir) (n : ν) :
    Option.Rel (File.Alike E) (s.lookup d n) (t.lookup d n) := by
  unfold Disk.lookup
  rw [h.dir]
  split
  · exact h.file d n
  · exact .none

theorem lookup_none (h : s.Alike E t) : t.lookup d n = none ↔ s.lookup d n = none := by
  have := h.lookup d n
  generalize s.lookup d n = f at this
  generalize t.lookup d n = g at this
  cases this <;> simp

theorem setLock [DecidableEq ν] (h : s.Alike E t) (b : Bool) :
    (s.setLock d n b).Alike E (t.setLock d n b) :=
  ⟨h.dir, h.file, h.safeDir, h.safeFile, by simp only [Disk.setLock, h.locked], h.issued⟩

theorem reboot (h : s.Alike E t) : s.reboot.Alike E t.reboot :=
  ⟨h.dir, h.file, h.safeDir, h.safeFile, rfl, h.issued⟩

theorem put [DecidableEq ν] (h : s.Alike E t) {f g : Option (File β)}
    (hf : Option.Rel (File.Alike E) f g) : (s.put d n f).Alike E (t.put d n g) := by
  refine ⟨h.dir, fun d' n' => ?_, h.safeDir, h.safeFile, h.locked, h.issued⟩
  simp only [Disk.put]
  split
  · exact hf
  · exact h.file d' n'

theorem mkdir (h : s.Alike E t) : (s.mkdir d).Alike E (t.mkdir d) := by
  refine ⟨by simp only [Disk.mkdir, h.dir], fun d' n' => ?_, h.safeDir,
    h.safeFile, h.locked, h.issued⟩
  simp only [Disk.mkdir]
  split
  · exact .none
  · exact h.file d' n'

theorem flush (h : s.Alike E t) : (s.flush d).Alike E (t.flush d) := by
  refine ⟨h.dir, h.file, by simp only [Disk.flush, h.dir, h.safeDir], fun d' n' => ?_, h.locked,
    h.issued⟩
  simp only [Disk.flush]
  split
  · exact h.lookup d n'
  · exact h.safeFile d' n'

theorem prune (h : s.Alike E t) : (s.prune d).Alike E (t.prune d) :=
  ⟨by simp only [Disk.prune, h.dir], h.file, h.safeDir, h.safeFile, h.locked, h.issued⟩

theorem issue (h : s.Alike E t) {u : String} : (s.issue u).Alike E (t.issue u) :=
  ⟨h.dir, h.file, h.safeDir, h.safeFile, h.locked, by simp only [Disk.issue, h.issued]⟩

theorem lookup_cases (h : s.Alike E t) (d : Dir) (n : ν) :
    (s.lookup d n = none ∧ t.lookup d n = none) ∨
      ∃ f g, s.lookup d n = some f ∧ t.lookup d n = some g ∧ f.Alike E g := by
  have := h.lookup d n
  generalize s.lookup d n = f at this
  generalize t.lookup d n = g at this
  cases this with
  | none => exact .inl ⟨rfl, rfl⟩
  | some h => exact .inr ⟨_, _, rfl, rfl, h⟩

variable [DecidableEq ν] {o o' : FsOp ν β} {A : o.Ans → o'.Ans → Prop}

theorem respond (hE : ∀ c, E c c) (hC : FsOp.Coupled E o o' A) (h : s.Alike E t) (u : String) :
    A (s.respond u o).1 (t.respond u o').1 ∧ (s.respond u o).2.Alike E (t.respond u o').2 := by
  have new : ∀ {c c' : β} {b : Bool}, E c c' →
      Option.Rel (File.Alike E) (some ⟨c, b⟩) (some ⟨c', b⟩) := fun hc => .some ⟨hc, rfl⟩
  cases hC with
  | read =>
    rename_i d n
    rcases h.lookup_cases d n with ⟨hs, ht⟩ | ⟨f, g, hs, ht, hf⟩
    · simp only [Disk.respond, hs, ht]
      exact ⟨Eq.refl _, h⟩
    · simp only [Disk.respond, hs, ht]
      exact ⟨hf.1, h⟩
  | create hc =>
    rename_i d n c c'
    simp only [Disk.respond, h.dir]
    split
    · rcases h.lookup_cases d n with ⟨hs, ht⟩ | ⟨f, g, hs, ht, hf⟩
      · simp only [hs, ht]
        exact ⟨trivial, h.put (new hc)⟩
      · simp only [hs, ht]
        exact ⟨trivial, h⟩
    · exact ⟨rfl, h⟩
  | same hr =>
    cases o with
    | existsDir d => exact ⟨congrFun h.dir.symm d, h⟩
    | existsFile d n =>
      rcases h.lookup_cases d n with ⟨hs, ht⟩ | ⟨f, g, hs, ht, -⟩ <;>
        exact ⟨by simp [Disk.respond, hs, ht], h⟩
    | read d n => exact (hr d n rfl).elim
    | createDir d =>
      simp only [Disk.respond, h.dir]
      split
      · exact ⟨rfl, h⟩
      · split
        · exact ⟨rfl, h.mkdir⟩
        · exact ⟨rfl, h⟩
    | create d n c =>
      simp only [Disk.respond, h.dir]
      split
      · rcases h.lookup_cases d n with ⟨hs, ht⟩ | ⟨f, g, hs, ht, -⟩
        · simp only [hs, ht]
          exact ⟨trivial, h.put (new (hE c))⟩
        · simp only [hs, ht]
          exact ⟨trivial, h⟩
      · exact ⟨rfl, h⟩
    | syncFile d n =>
      rcases h.lookup_cases d n with ⟨hs, ht⟩ | ⟨f, g, hs, ht, hf⟩
      · simp only [Disk.respond, hs, ht]
        exact ⟨trivial, h⟩
      · simp only [Disk.respond, hs, ht]
        exact ⟨trivial, h.put (new hf.1)⟩
    | syncDir d =>
      simp only [Disk.respond, h.dir]
      split
      · exact ⟨rfl, h.flush⟩
      · exact ⟨rfl, h⟩
    | rename d a b =>
      rcases h.lookup_cases d a with ⟨hs, ht⟩ | ⟨f, g, hs, ht, hf⟩
      · simp only [Disk.respond, hs, ht]
        exact ⟨trivial, h⟩
      · simp only [Disk.respond, hs, ht]
        exact ⟨trivial, (h.put .none).put (.some hf)⟩
    | hardLink d a b =>
      rcases h.lookup_cases d a with ⟨hs, ht⟩ | ⟨f, g, hs, ht, hf⟩
      · simp only [Disk.respond, hs, ht]
        exact ⟨trivial, h⟩
      · rcases h.lookup_cases d b with ⟨hs', ht'⟩ | ⟨f', g', hs', ht', -⟩
        · simp only [Disk.respond, hs, ht, hs', ht']
          exact ⟨trivial, h.put (.some hf)⟩
        · simp only [Disk.respond, hs, ht, hs', ht']
          exact ⟨trivial, h⟩
    | removeFile d n =>
      rcases h.lookup_cases d n with ⟨hs, ht⟩ | ⟨f, g, hs, ht, -⟩
      · simp only [Disk.respond, hs, ht]
        exact ⟨trivial, h⟩
      · simp only [Disk.respond, hs, ht]
        exact ⟨trivial, h.put .none⟩
    | removeDirAll d =>
      simp only [Disk.respond, h.dir]
      split
      · exact ⟨rfl, h.prune⟩
      · exact ⟨rfl, h⟩
    | access d =>
      simp only [Disk.respond, h.dir]
      exact ⟨trivial, h⟩
    | tryLock d n =>
      simp only [Disk.respond, h.locked]
      split
      · exact ⟨rfl, h⟩
      · exact ⟨rfl, h.setLock true⟩
    | unlock d n => exact ⟨rfl, h.setLock false⟩
    | uuid => exact ⟨rfl, h.issue⟩
    | transfer src dst n =>
      rcases h.lookup_cases src n with ⟨hs, ht⟩ | ⟨f, g, hs, ht, hf⟩
      · simp only [Disk.respond, hs, ht]
        exact ⟨trivial, h⟩
      · simp only [Disk.respond, hs, ht, h.dir]
        split
        · exact ⟨rfl, h.put (new hf.1)⟩
        · exact ⟨rfl, h⟩

omit [DecidableEq ν] in
theorem flushed (h : s.Alike E t) (hf : Disk.Flushed d s s') :
    ∃ t', Disk.Flushed d t t' ∧ s'.Alike E t' := by
  have old : ∀ d' n, ∃ g, Option.Rel (File.Alike E) (s'.safeFile d' n) g ∧
      (g = t.safeFile d' n ∨ d' = d ∧ g = t.lookup d' n) := by
    intro d' n
    rcases hf.safeFile d' n with he | ⟨hd, he⟩
    · exact ⟨_, by rw [he]; exact h.safeFile d' n, .inl rfl⟩
    · exact ⟨_, by rw [he]; exact h.lookup d' n, .inr ⟨hd, rfl⟩⟩
  choose g hg hold using old
  refine ⟨⟨t.dir, t.file, s'.safeDir, g, s'.locked, t.issued⟩,
    ⟨rfl, rfl, fun d' => ?_, hold, hf.locked.trans h.locked.symm, rfl⟩,
      ⟨h.dir.trans hf.dir.symm, ?_, rfl, hg, rfl, ?_⟩⟩
  · show s'.safeDir d' = t.safeDir d' ∨ d'.tail = d ∧ s'.safeDir d' = t.dir d'
    rw [h.safeDir, h.dir]
    exact hf.safeDir d'
  · rw [hf.file]
    exact h.file
  · exact h.issued.trans hf.issued.symm

omit [DecidableEq ν] in
theorem pruned (h : s.Alike E t) (hp : Disk.Pruned d s s') :
    ∃ t', Disk.Pruned d t t' ∧ s'.Alike E t' := by
  have left : ∀ d' n, ∃ g, Option.Rel (File.Alike E) (s'.file d' n) g ∧
      (g = t.file d' n ∨ g = none) ∧ (s'.file d' n = s.file d' n → g = t.file d' n) := by
    intro d' n
    by_cases he : s'.file d' n = s.file d' n
    · exact ⟨_, by rw [he]; exact h.file d' n, .inl rfl, fun _ => rfl⟩
    · have hn := (hp.file d' n).resolve_left he
      exact ⟨none, by rw [hn]; exact .none, .inr rfl, fun h => (he h).elim⟩
  choose g hg hleft same using left
  refine ⟨⟨s'.dir, g, t.safeDir, t.safeFile, s'.locked, t.issued⟩, ⟨fun d' hd => ?_, ?_, ?_, hleft,
    rfl, rfl, hp.locked.trans h.locked.symm, rfl⟩,
      ⟨rfl, hg, h.safeDir.trans hp.safeDir.symm, ?_, rfl, h.issued.trans hp.issued.symm⟩⟩
  · obtain ⟨hdir, hfile⟩ := hp.outside d' hd
    exact ⟨by rw [h.dir]; exact hdir, funext fun n => same d' n (congrFun hfile n)⟩
  · intro d' hd
    rw [h.dir]
    exact hp.inside d' hd
  · intro x p hx hd
    rw [h.dir] at hd
    exact hp.parent x p hx hd
  · rw [hp.safeFile]
    exact h.safeFile

/-- A crash can leave the same in the middle of corresponding operations. -/
theorem tear (hE : ∀ c, E c c) (hC : FsOp.Coupled E o o' A) (h : s.Alike E t) (ht : s.Tear o s') :
    ∃ t', t.Tear o' t' ∧ s'.Alike E t' := by
  cases ht with
  | before => exact ⟨t, .before _, h⟩
  | after _ u => exact ⟨_, .after _ u, (h.respond hE hC u).2⟩
  | @create d n c c' hd hn =>
    have hd' : t.dir d = true := by rw [h.dir]; exact hd
    have alike : (s.put d n (some ⟨c', false⟩)).Alike E (t.put d n (some ⟨c', false⟩)) :=
      h.put (.some ⟨hE c', rfl⟩)
    cases hC with
    | same => exact ⟨_, .create hd' (h.lookup_none.mpr hn), alike⟩
    | create => exact ⟨_, .create hd' (h.lookup_none.mpr hn), alike⟩
  | syncDir hf =>
    obtain ⟨t', ht, ha⟩ := h.flushed hf
    cases hC with
    | same => exact ⟨t', .syncDir ht, ha⟩
  | removeDirAll hp =>
    obtain ⟨t', ht, ha⟩ := h.pruned hp
    cases hC with
    | same => exact ⟨t', .removeDirAll ht, ha⟩
  | @transfer src dst n c hd =>
    cases hC with
    | same => exact ⟨_, .transfer (by rw [h.dir]; exact hd), h.put (.some ⟨hE c, rfl⟩)⟩

omit [DecidableEq ν] in
theorem failure {e : IoError} {x : o.Ans} (hC : FsOp.Coupled E o o' A)
    (hx : o.failure e = some x) : ∃ y, o'.failure e = some y ∧ A x y := by
  cases hC with
  | same => exact ⟨x, hx, rfl⟩
  | read =>
    cases hx
    exact ⟨_, rfl, Eq.refl e⟩
  | create =>
    cases hx
    exact ⟨_, rfl, rfl⟩

omit [DecidableEq ν] in
theorem frame {K : Dir → ν → Prop} (hE : ∀ c, E c c) (h : s.Alike E t) (hf : Frame K s s') :
    ∃ t', Frame K t t' ∧ s'.Alike E t' := by
  have upgrade : ∀ {a b c : Option (File β)}, Option.Rel (File.Alike E) a b → Upgrade a c →
      ∃ c', Upgrade b c' ∧ Option.Rel (File.Alike E) c c' := by
    intro a b c hab hc
    cases hab with
    | none =>
      obtain rfl := Upgrade.none_left.mp hc
      exact ⟨none, .refl _, .none⟩
    | @some f g hfg =>
      obtain ⟨x, rfl, hx, hs⟩ := hc.some_left
      refine ⟨some ⟨g.content, x.synced⟩, ⟨rfl, fun hg => hs (hfg.2.trans hg)⟩, .some ⟨?_, rfl⟩⟩
      rw [hx]
      exact hfg.1
  have self : ∀ f : Option (File β), Option.Rel (File.Alike E) f f := fun f => by
    cases f with
    | none => exact .none
    | some f => exact .some ⟨hE _, rfl⟩
  have now : ∀ d n, ∃ g, Option.Rel (File.Alike E) (s'.file d n) g ∧
      (K d n → Upgrade (t.lookup d n) (if s'.dir d then g else none)) := by
    intro d n
    by_cases hk : K d n
    · have hu := hf.now d n hk
      by_cases hd : s'.dir d = true
      · rw [show s'.lookup d n = s'.file d n by simp [Disk.lookup, hd]] at hu
        obtain ⟨g, hg, hr⟩ := upgrade (h.lookup d n) hu
        exact ⟨g, hr, fun _ => by rw [if_pos hd]; exact hg⟩
      · rw [show s'.lookup d n = none by simp [Disk.lookup, hd]] at hu
        refine ⟨_, self _, fun _ => ?_⟩
        rw [if_neg hd, h.lookup_none.mpr hu.none_right]
        exact .refl _
    · exact ⟨_, self _, fun h => (hk h).elim⟩
  have safe : ∀ d n, ∃ g, Option.Rel (File.Alike E) (s'.safeFile d n) g ∧
      (K d n → g = t.safeFile d n ∨ Upgrade (t.lookup d n) g) := by
    intro d n
    by_cases hk : K d n
    · rcases hf.safe d n hk with he | hu
      · exact ⟨_, by rw [he]; exact h.safeFile d n, fun _ => .inl rfl⟩
      · obtain ⟨g, hg, hr⟩ := upgrade (h.lookup d n) hu
        exact ⟨g, hr, fun _ => .inr hg⟩
    · exact ⟨_, self _, fun h => (hk h).elim⟩
  choose g hg hnow using now
  choose g' hg' hsafe using safe
  refine ⟨⟨s'.dir, g, s'.safeDir, g', s'.locked, s'.issued⟩, ⟨hnow, hsafe, ?_, ?_, ?_⟩,
    ⟨rfl, hg, rfl, hg', rfl, rfl⟩⟩
  · rw [h.dir]
    exact hf.dir
  · rw [h.dir, h.safeDir]
    exact hf.safeDir
  · rw [h.issued]
    exact hf.issued

omit [DecidableEq ν] in
/-- A power loss can leave the same of both disks. -/
theorem powerLoss (hE : ∀ c, E c c) (h : s.Alike E t) (hp : s.PowerLoss s') :
    ∃ t', t.PowerLoss t' ∧ s'.Alike E t' := by
  have survives : ∀ {a b c : Option (File β)}, Option.Rel (File.Alike E) a b → Survives a c →
      ∃ c', Survives b c' ∧ Option.Rel (File.Alike E) c c' := by
    intro a b c hab hc
    cases hab with
    | none =>
      obtain rfl := hc.none_left
      exact ⟨none, trivial, .none⟩
    | @some f g hfg =>
      cases c with
      | none => exact hc.elim
      | some x =>
        obtain ⟨hx, hs⟩ := hc
        by_cases hf : f.synced = true
        · refine ⟨some ⟨g.content, true⟩, ⟨rfl, fun _ => rfl⟩, .some ⟨?_, hx⟩⟩
          rw [hs hf]
          exact hfg.1
        · exact ⟨some x, ⟨hx, fun hg => (hf (hfg.2.trans hg)).elim⟩, .some ⟨hE _, rfl⟩⟩
  have left : ∀ d n, ∃ g, Option.Rel (File.Alike E) (s'.file d n) g ∧ (s'.dir d = true →
      Survives (t.lookup d n) g ∨ Survives (t.safeFile d n) g) := by
    intro d n
    by_cases hd : s'.dir d = true
    · rcases hp.file d n hd with hv | hv
      · obtain ⟨g, hg, hr⟩ := survives (h.lookup d n) hv
        exact ⟨g, hr, fun _ => .inl hg⟩
      · obtain ⟨g, hg, hr⟩ := survives (h.safeFile d n) hv
        exact ⟨g, hr, fun _ => .inr hg⟩
    · refine ⟨_, (Alike.refl hE s').file d n, fun h => (hd h).elim⟩
  choose g hg hleft using left
  let t' : Disk ν β := ⟨s'.dir, g, s'.dir, fun d n => if s'.dir d then g d n else none,
    s'.locked, t.issued⟩
  refine ⟨t', ⟨fun d hd => ?_, hp.parent, fun d hd hs hpar => ?_, hleft, rfl, fun _ _ => rfl,
    hp.locked, rfl⟩, ⟨rfl, hg, hp.safeDir.symm, fun d n => ?_, rfl, h.issued.trans hp.issued.symm⟩⟩
  · rw [h.dir, h.safeDir]
    exact hp.dir_of d hd
  · rw [h.dir] at hd
    rw [h.safeDir] at hs
    exact hp.kept d hd hs hpar
  · rw [hp.safeFile]
    show Option.Rel _ (if s'.dir d then s'.file d n else none) (if s'.dir d then g d n else none)
    split
    · exact hg d n
    · exact .none

end Disk.Alike

/-- Names are handed out whatever the files hold. -/
def Policy.Blind (E : β → β → Prop) (π : Policy ν β) : Prop :=
  ∀ s t u, s.Alike E t → π.uuid s u → π.uuid t u

/-- Corresponding programs have the same runs and the same cuts on alike disks. -/
theorem fsMachine_couples [DecidableEq ν] (hE : ∀ c, E c c) {π : Policy ν β} (hπ : π.Blind E) :
    (fsMachine π).Couples (FsOp.Coupled E) (Disk.Alike E) where
  step {o o' A s t x s'} hC h hs := by
    cases hs with
    | respond _ u hu =>
      have hu' : o' = .uuid → π.uuid t u := by
        rintro rfl
        cases hC
        exact hπ s t u h (hu rfl)
      exact ⟨_, _, .respond o' u hu', h.respond hE hC u⟩
    | fault hf hk hx ht =>
      obtain ⟨y, hy, hA⟩ := Disk.Alike.failure hC hx
      obtain ⟨t', ht', ha⟩ := h.tear hE hC ht
      exact ⟨y, t', .fault hf hk hy ht', hA, ha⟩
    | @inexact src dst n c hi hd =>
      cases hC with
      | same => exact ⟨_, _, .inexact hi (by rw [h.dir]; exact hd), rfl, h.put (.some ⟨hE c, rfl⟩)⟩
    | unseen hb => cases hb
  tear hC h ht := h.tear hE hC ht

end

end HsmRs
