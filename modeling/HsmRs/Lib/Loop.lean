import HsmRs.Lib.Trace

/-! # Loops

A loop as its first rounds: after a number of rounds that is given from outside it goes on
as `rest`. What holds for every number of rounds holds for the loop itself, and a loop
that never comes to `rest` has ended before.
-/

namespace HsmRs

namespace Prog

variable {S : Sig} {α β ε : Type}

/-- Go through the body until it yields a result, at most the given number of times. -/
def loop (rest : ExceptT ε (Prog S) α) (body : β → ExceptT ε (Prog S) (β ⊕ α)) :
    Nat → β → ExceptT ε (Prog S) α
  | 0, _ => rest
  | n + 1, b => body b >>= fun
      | .inl b => loop rest body n b
      | .inr a => pure a

variable {C : List (Event S) → S.Op → Prop} {Q : Except ε α → List (Event S) → Prop}
  {P : S.Op → Prop} {rest : ExceptT ε (Prog S) α} {body : β → ExceptT ε (Prog S) (β ⊕ α)}

/-- An invariant with the number of rounds that are left. -/
theorem traces_loop {I : Nat → β → List (Event S) → Prop}
    (done : ∀ b past, I 0 b past → rest.run.Traces C Q past)
    (round : ∀ n b past, I (n + 1) b past → (body b).run.Traces C (fun r past => match r with
      | .ok (.inl b) => I n b past
      | .ok (.inr a) => Q (.ok a) past
      | .error e => Q (.error e) past) past)
    {n : Nat} {b : β} {past : List (Event S)} (h : I n b past) :
    (loop rest body n b).run.Traces C Q past := by
  induction n generalizing b past with
  | zero => exact done b past h
  | succ n ih =>
    refine traces_run_bind.mpr ((round n b past h).mono (fun _ _ h => h) ?_)
    rintro (e | b | a) past h
    · exact h
    · exact ih h
    · exact traces_ret.mpr h

theorem traces_loop_assume {A : List (Event S) → Event S → Prop}
    {I : Nat → β → List (Event S) → Prop}
    (done : ∀ b past, Stepwise A past → I 0 b past → rest.run.Traces
      (fun past o => Stepwise A past → C past o) (fun r past => Stepwise A past → Q r past) past)
    (round : ∀ n b past, Stepwise A past → I (n + 1) b past → (body b).run.Traces
      (fun past o => Stepwise A past → C past o) (fun r past => Stepwise A past → match r with
        | .ok (.inl b) => I n b past
        | .ok (.inr a) => Q (.ok a) past
        | .error e => Q (.error e) past) past)
    {n : Nat} {b : β} {past : List (Event S)} (h : I n b past) :
    (loop rest body n b).run.Traces (fun past o => Stepwise A past → C past o)
      (fun r past => Stepwise A past → Q r past) past := by
  refine traces_loop (I := fun n b past => Stepwise A past → I n b past) ?_ ?_ fun _ => h
  · exact fun b past h => traces_assume fun hp => done b past hp (h hp)
  · intro n b past h
    have body := traces_assume fun hp => round n b past hp (h hp)
    refine body.mono (fun _ _ h => h) ?_
    rintro (e | b | a) past h
    · exact h
    · exact h
    · exact h

theorem within_loop (done : rest.run.Within P) (round : ∀ b, (body b).run.Within P) {n : Nat}
    {b : β} : (loop rest body n b).run.Within P := by
  induction n generalizing b with
  | zero => exact done
  | succ n ih =>
    refine within_bind (round b) fun x => ?_
    cases x with
    | inl b => exact ih
    | inr a => trivial

end Prog

end HsmRs
