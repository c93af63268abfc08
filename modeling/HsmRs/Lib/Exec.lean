import HsmRs.Lib.Frame

/-! # Executing programs

One run of a program, on names taken from a list, with a fault at the operations
that `bad` marks, and cut off when the steps run out. It is a run, or a cut, of
every machine whose environment can hand out unused names and, where `bad` marks
anything, can fail.
-/

namespace HsmRs

variable {ν β α : Type} [DecidableEq ν]

def FsOp.isUuid : FsOp ν β → Bool
  | uuid => true
  | _ => false

def IoError.injected : IoError := ⟨.other, "Input/output error (os error 5)"⟩

def Prog.exec (bad : Nat → Bool) : (fuel : Nat) → (names : List String) →
    Prog (fsSig ν β) α → Disk ν β → Option α × Disk ν β
  | _, _, .ret a, s => (some a, s)
  | 0, _, .op _ _, s => (none, s)
  | n + 1, names, .op o k, s =>
      match bad n, o.failure .injected with
      | true, some x => exec bad n names (k x) s
      | _, _ =>
          if o.isUuid && (names.isEmpty || s.issued (names.headD "")) then (none, s)
          else
            let r := s.respond (names.headD "") o
            exec bad n (if o.isUuid then names.tail else names) (k r.1) r.2

/-- Every unused name can be handed out. -/
def Policy.Generous (π : Policy ν β) : Prop := ∀ s u, s.issued u = false → π.uuid s u

/-- One operation that goes well, where a name is the first one that has not been handed out. -/
def FsOp.perform (names : List String) (o : FsOp ν β) (s : Disk ν β) : Option (o.Ans × Disk ν β) :=
  if o.isUuid then (names.find? fun u => !s.issued u).map fun u => s.respond u o
  else some (s.respond "" o)

theorem FsOp.perform_step {π : Env ν β} (hπ : π.Generous) {names : List String} {o : FsOp ν β}
    {s s' : Disk ν β} {x : o.Ans} (h : o.perform names s = some (x, s')) : FsStep π s o x s' := by
  unfold perform at h
  split at h
  · obtain ⟨u, hu, h⟩ := Option.map_eq_some_iff.mp h
    have := FsStep.respond (π := π) (s := s) o u fun _ => hπ s u (by simpa using List.find?_some hu)
    rw [h] at this
    exact this
  · rename_i named
    have := FsStep.respond (π := π) (s := s) o "" fun he => absurd (he ▸ rfl) named
    rw [Option.some.inj h] at this
    exact this

namespace Prog

variable {π : Env ν β} {bad : Nat → Bool} {p : Prog (fsSig ν β) α} {n : Nat}
  {names : List String} {s : Disk ν β}

theorem exec_sound (hπ : ∀ u ∈ names, ∀ s, s.issued u = false → π.uuid s u)
    (hb : π.faults = true ∨ ∀ n, bad n = false) :
    (∀ a, (p.exec bad n names s).1 = some a → Runs π.machine p s a (p.exec bad n names s).2) ∧
    ((p.exec bad n names s).1 = none → Cuts π.machine p s (p.exec bad n names s).2) := by
  induction p generalizing n names s with
  | ret a =>
    refine ⟨fun b hb => ?_, fun hn => ?_⟩
    · cases n <;> simp only [exec, Option.some.injEq] at hb ⊢ <;> subst hb <;> exact .ret _ _
    · cases n <;> simp [exec] at hn
  | op o k ih =>
    cases n with
    | zero => exact ⟨fun b hb => by simp [exec] at hb, fun _ => .here _ _⟩
    | succ n =>
      have respond : ¬ (o.isUuid && (names.isEmpty || s.issued (names.headD ""))) = true →
          FsStep π s o (s.respond (names.headD "") o).1 (s.respond (names.headD "") o).2 := by
        intro h
        refine .respond o _ fun he => ?_
        subst he
        simp only [FsOp.isUuid, Bool.true_and, Bool.or_eq_true, List.isEmpty_iff, not_or,
          Bool.not_eq_true] at h
        refine hπ _ ?_ _ h.2
        cases names with
        | nil => exact (h.1 rfl).elim
        | cons u rest => exact .head _
      have rest : ∀ u ∈ (if o.isUuid then names.tail else names), ∀ s, s.issued u = false →
          π.uuid s u := by
        intro u hu
        split at hu
        · exact hπ u (List.mem_of_mem_tail hu)
        · exact hπ u hu
      have go : ((if o.isUuid && (names.isEmpty || s.issued (names.headD "")) then (none, s)
          else exec bad n (if o.isUuid then names.tail else names)
            (k (s.respond (names.headD "") o).1) (s.respond (names.headD "") o).2) :
              Option α × Disk ν β) = (Prog.op o k).exec bad (n + 1) names s →
          (∀ a, ((Prog.op o k).exec bad (n + 1) names s).1 = some a →
            Runs π.machine (.op o k) s a ((Prog.op o k).exec bad (n + 1) names s).2) ∧
          (((Prog.op o k).exec bad (n + 1) names s).1 = none →
            Cuts π.machine (.op o k) s ((Prog.op o k).exec bad (n + 1) names s).2) := by
        intro he
        rw [← he]
        split
        · exact ⟨fun b hb => by simp at hb, fun _ => .here _ _⟩
        · rename_i h
          exact ⟨fun b hb => .op (respond h) ((ih _ rest).1 b hb),
            fun hn => .later (respond h) ((ih _ rest).2 hn)⟩
      cases hbad : bad n with
      | false => exact go (by simp [exec, hbad])
      | true =>
        cases hf : o.failure .injected with
        | none => exact go (by simp [exec, hbad, hf])
        | some x =>
          have hfault : FsStep π s o x s := by
            refine .fault ?_ rfl hf (.before o)
            rcases hb with hb | hb
            · exact hb
            · simp [hb] at hbad
          simp only [exec, hbad, hf]
          exact ⟨fun b hb => .op hfault ((ih _ hπ).1 b hb), fun hn =>
            .later hfault ((ih _ hπ).2 hn)⟩

theorem exec_runs (hπ : π.Generous) (hb : π.faults = true ∨ ∀ n, bad n = false) {a : α}
    (h : (p.exec bad n names s).1 = some a) :
    Runs π.machine p s a (p.exec bad n names s).2 :=
  (exec_sound (fun u _ s => hπ s u) hb).1 a h

theorem exec_cuts (hπ : π.Generous) (hb : π.faults = true ∨ ∀ n, bad n = false)
    (h : (p.exec bad n names s).1 = none) :
    Cuts π.machine p s (p.exec bad n names s).2 :=
  (exec_sound (fun u _ s => hπ s u) hb).2 h

/-- The program when all its looks at paths fail. -/
def overlook : Prog (fsSig ν β) α → Prog (fsSig ν β) α
  | .ret a => .ret a
  | .op o k => match o.unseen with
    | some x => overlook (k x)
    | none => .op o fun x => overlook (k x)

/-- What it does then is a run of an environment in which they can fail. -/
theorem overlook_runs {π : Policy ν β} {s s' : Disk ν β} {a : α}
    (h : Runs (fsMachine π) p.overlook s a s') : Runs (Env.mk π true).machine p s a s' := by
  induction p generalizing s with
  | ret a =>
    obtain ⟨rfl, rfl⟩ := Runs.ret_iff.mp h
    exact .ret _ _
  | op o k ih =>
    unfold overlook at h
    split at h
    · rename_i x hx
      exact .op (.unseen rfl hx) (ih _ h)
    · obtain ⟨x, s₁, step, h⟩ := Runs.op_iff.mp h
      exact .op step.dim (ih _ h)

end Prog

end HsmRs
