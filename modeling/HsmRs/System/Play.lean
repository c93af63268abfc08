import HsmRs.Archive.Play
import HsmRs.System.World

/-! # Playing the engine

A process that is told step by step what to do, each step with the names it is given. What is
played is a run of the system.
-/

namespace HsmRs

/-- What the process is told to do. `calls` is the next call of the engine call that was begun
last. -/
inductive Order
  | imports (id : String) (bytes : Bytes)
  | begins (c : EngineCall)
  | calls
  | opensStorage

section

variable {κ : Type} [DecidableEq κ] [KeyHash κ] [Crates] {roots : Roots}
  {π : Policy (FileName κ) (Content κ)} {env : Setting κ} {s : Disk (FileName κ) (Content κ)}
  {l : Live κ} {sys sys' : System κ}

/-- The imports that the order begins, and the program it stands for. -/
def Live.obey (roots : Roots) (l : Live κ) : Order → Option (List (String × Bytes) ×
    Prog (LocalSig κ) (Live κ × List (String × Bytes)))
  | .imports id bytes => l.storage.map fun self =>
      ([(id, bytes)], self.import id bytes >>= fun x => .ret ({ l with storage := some x.2 },
        match x.1 with
        | .ok _ => [(id, bytes)]
        | .error _ => []))
  | .begins c =>
      if l.storage.isSome ∧ l.archive.isSome then
        some ([], .ret ({ l with engines := c.workflow.run :: l.engines }, []))
      else none
  | .calls => match l with
      | ⟨some self, some archive, .op c k :: after⟩ => some ([],
          Stores.answer c ⟨self, archive⟩ >>= fun x =>
            .ret (⟨some x.2.storage, some x.2.archive, k x.1 :: after⟩, []))
      | _ => none
  | .opensStorage =>
      if l.storage.isNone then
        some ([], (LocalStorage.open roots.storage).run >>= fun x =>
          .ret ({ l with storage := x.toOption }, []))
      else none

theorem Live.obey_acts {opens : Prop} {order : Order} {begins : List (String × Bytes)}
    {p : Prog (LocalSig κ) (Live κ × List (String × Bytes))}
    (h : l.obey roots order = some (begins, p)) : Live.Acts roots opens l begins p := by
  cases order with
  | imports id bytes =>
    obtain ⟨self, hs, he⟩ := Option.map_eq_some_iff.mp h
    cases he
    exact .imports id bytes hs
  | begins c =>
    simp only [obey] at h
    split at h
    · rename_i hl
      cases h
      exact .begins c hl.1 hl.2
    · cases h
  | calls =>
    simp only [obey] at h
    split at h
    · cases h
      exact @Live.Acts.calls _ _ _ _ _ _ _ _ _ _ [] _
    · cases h
  | opensStorage =>
    simp only [obey] at h
    split at h
    · rename_i hl
      cases h
      exact .opensStorage (Option.isNone_iff_eq_none.mp hl)
    · cases h

namespace System

def start (roots : Roots) (id : String) (names : List String) (s : Disk (FileName κ) (Content κ)) :
    Option (System κ) :=
  match (LocalArchive.open roots.archive id : Io κ _).run.exec (fun _ => false) 100 names s with
  | (some (.ok archive), s') => some ⟨s', ⟨none, some archive, []⟩, ⟨[], []⟩⟩
  | _ => none

def play (roots : Roots) : List (Order × List String) → System κ → Option (System κ)
  | [], sys => some sys
  | (order, names) :: rest, ⟨s, l, g⟩ =>
      match l.obey roots order with
      | some (begins, p) =>
          match p.exec (fun _ => false) 100 names s with
          | (some (l', done), s') => play roots rest ⟨s', l', ⟨begins ++ g.begun, done ++ g.done⟩⟩
          | (none, _) => none
      | none => none

theorem start_step (hπ : π.Generous) (ho : env.opens s) {id : String} {names : List String}
    (h : start roots id names s = some sys) : Step π env roots ⟨s, .dead, ⟨[], []⟩⟩ sys := by
  unfold start at h
  split at h
  · rename_i archive s' he
    cases h
    have opened := Prog.exec_runs (π := π) hπ (.inr fun _ => rfl) (congrArg Prod.fst he)
    rw [he] at opened
    exact @Step.acts _ _ _ _ _ _ _ _ _ _ _ _ [] [] _ (.opensArchive id ho rfl)
      (Runs.bind_iff.mpr ⟨_, _, opened, .ret _ _⟩)
  · cases h

theorem play_steps (hπ : π.Generous) {script : List (Order × List String)}
    (h : sys.play roots script = some sys') : Steps π env roots sys sys' := by
  induction script generalizing sys with
  | nil =>
    cases h
    exact .refl
  | cons x rest ih =>
    obtain ⟨order, names⟩ := x
    obtain ⟨s, l, g⟩ := sys
    rw [play] at h
    split at h
    · rename_i begins p hp
      split at h
      · rename_i l' done s' he
        have runs := Prog.exec_runs (π := π) hπ (.inr fun _ => rfl) (congrArg Prod.fst he)
        rw [he] at runs
        exact .head (.acts (Live.obey_acts hp) runs) (ih h)
      · cases h
    · cases h

end System

end

namespace Reference

def both : Roots := ⟨["s"], ["a"], by decide, by decide⟩

/-- One byte is imported and archived. -/
def uploaded : Option (System Keyed) :=
  (System.start both "b" ["t1"] blank).bind <| System.play both
    [(.opensStorage, ["store", "ns", "t2"]), (.imports "e" [0], ["u0", "t3", "t4"]),
      (.begins (.archive ⟨"archive", 1, 1⟩ content ⟨"b", "o"⟩), []),
      (.calls, []), (.calls, ["v", "t5"]), (.calls, []), (.calls, ["u1", "t6"]), (.calls, []),
      (.calls, []), (.calls, ["t7", "r", "t8"]), (.calls, ["t9"])]

theorem uploaded_reachable (env : Setting Keyed) (ho : env.opens blank) :
    ∃ sys self, uploaded = some sys ∧ sys.live.storage = some self ∧
      System.Reachable anything env both sys ∧
      self.state.entities.lookup "e" = some ⟨online.attached receipt, some "u0"⟩ := by
  have he : (uploaded.bind fun sys => sys.live.storage.bind fun self =>
      self.state.entities.lookup "e") = some ⟨online.attached receipt, some "u0"⟩ := by
    decide +kernel
  obtain ⟨sys, hs, he⟩ := Option.bind_eq_some_iff.mp he
  obtain ⟨self, hl, he⟩ := Option.bind_eq_some_iff.mp he
  obtain ⟨sys₀, h₀, h₁⟩ := Option.bind_eq_some_iff.mp hs
  exact ⟨sys, self, hs, hl, ⟨blank, blank_bare _, ⟨rfl, rfl⟩,
    .head (System.start_step anything_generous ho h₀) (System.play_steps anything_generous h₁)⟩, he⟩

end Reference

end HsmRs
