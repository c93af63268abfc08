import HsmRs.Engine.Workflow
import HsmRs.Local.Archive
import HsmRs.Local.Executor
import HsmRs.Local.Storage

/-! # The local adapters behind the engine

The calls of the engine answered by local storage, the local archive and the local
data mover.
-/

namespace HsmRs

variable {κ : Type} [DecidableEq κ] [KeyHash κ] [Crates]

structure Stores (κ : Type) where
  storage : LocalStorage κ
  archive : LocalArchive

namespace Stores

def onStorage (self : Stores κ) {α : Type}
    (p : Prog (LocalSig κ) (HsmResult α × LocalStorage κ)) :
    Prog (LocalSig κ) (HsmResult α × Stores κ) := do
  let (answer, storage) ← p
  return (answer, { self with storage })

def storageCall (self : Stores κ) : (c : StorageCall) → Prog (LocalSig κ) (c.Ans × Stores κ)
  | .completed ctx data action => return (self.storage.completed ctx data action, self)
  | .inspect entity => return (self.storage.inspect entity, self)
  | .prepareArchive ctx data => self.onStorage (self.storage.prepareArchive ctx data)
  | .commitArchive ctx view receipt =>
      self.onStorage (self.storage.commitArchive ctx view receipt)
  | .release ctx expected => self.onStorage (self.storage.release ctx expected)
  | .prepareRecall ctx expected anchor =>
      self.onStorage (self.storage.prepareRecall ctx expected anchor)
  | .commitRecall ctx target evidence =>
      self.onStorage (self.storage.commitRecall ctx target evidence)

omit [DecidableEq κ] in
/-- `LocalArchive` keeps nothing in memory that its calls change. -/
def backendCall (archive : LocalArchive) : (c : BackendCall) → Prog (LocalSig κ) c.Ans
  | .inspect key => (archive.inspect key).run
  | .prepare ctx key view => (archive.prepare ctx key view).run
  | .resumeCommit ctx target view => (archive.resumeCommit ctx target view).run
  | .commit ctx target view evidence => (archive.commit ctx target view evidence).run
  | .open receipt => (archive.openReceipt receipt).run

def answer (c : Call) (self : Stores κ) : Prog (LocalSig κ) (c.Ans × Stores κ) :=
  match c with
  | .storage c => self.storageCall c
  | .backend c => return (← backendCall self.archive c, self)
  | .copy ctx source destination =>
      return (← (LocalDataMover.copy ctx source destination).run, self)

end Stores

def Workflow.locally {α : Type} (w : Workflow α) (stores : Stores κ) :
    Prog (LocalSig κ) (HsmResult α × Stores κ) :=
  w.run.interp Stores.answer stores

/-! ## How a workflow runs -/

namespace Workflow

variable {α β : Type} {π : Policy (FileName κ) (Content κ)} {w : Workflow α} {f : α → Workflow β}
  {stores stores' : Stores κ} {s s' : Disk (FileName κ) (Content κ)} {r : HsmResult β}

theorem runs_bind : Runs (fsMachine π) ((w >>= f).locally stores) s (r, stores') s' ↔
    ∃ x t s₁, Runs (fsMachine π) (w.locally stores) s (x, t) s₁ ∧ match x with
      | .ok a => Runs (fsMachine π) ((f a).locally t) s₁ (r, stores') s'
      | .error e => r = .error e ∧ stores' = t ∧ s' = s₁ := by
  unfold locally
  rw [Prog.run_bind, Prog.interp_bind, Runs.bind_iff, Prod.exists]
  refine exists_congr fun x => exists_congr fun t => exists_congr fun s₁ =>
    and_congr_right fun _ => ?_
  cases x with
  | ok a => rfl
  | error e => simp only [Prog.interp_ret, Runs.ret_iff, Prod.mk.injEq, and_assoc]

theorem runs_pure {a : β} : Runs (fsMachine π) ((pure a : Workflow β).locally stores) s
    (r, stores') s' ↔
    r = .ok a ∧ stores' = stores ∧ s' = s := by
  unfold locally
  simp only [Prog.run_pure, Prog.interp_ret, Runs.ret_iff, Prod.mk.injEq, and_assoc]

theorem runs_throw {e : HsmError} :
    Runs (fsMachine π) ((throw e : Workflow β).locally stores) s (r, stores') s' ↔
      r = .error e ∧ stores' = stores ∧ s' = s := by
  unfold locally
  simp only [Prog.run_throw, Prog.interp_ret, Runs.ret_iff, Prod.mk.injEq, and_assoc]

theorem runs_check {x : HsmResult α} :
    Runs (fsMachine π) ((liftM x >>= f : Workflow β).locally stores) s
      (r, stores') s' ↔ match x with
      | .ok a => Runs (fsMachine π) ((f a).locally stores) s (r, stores') s'
      | .error e => r = .error e ∧ stores' = stores ∧ s' = s := by
  cases x with
  | ok a => rfl
  | error e => exact runs_throw

theorem runs_last {c : Call} {g : c.Ans → HsmResult β} :
    Runs (fsMachine π) (Workflow.locally (ExceptT.mk (.op c fun x => .ret (g x))) stores) s
      (r, stores') s' ↔ ∃ x, Runs (fsMachine π) (Stores.answer c stores) s
        (x, stores') s' ∧ r = g x := by
  unfold locally
  simp only [Prog.run_mk, Prog.interp_op, Prog.interp_ret, Runs.bind_iff, Runs.ret_iff, Prod.exists,
    Prod.mk.injEq]
  constructor
  · rintro ⟨x, t, s₁, h, ⟨rfl, rfl⟩, rfl⟩
    exact ⟨x, h, rfl⟩
  · rintro ⟨x, h, rfl⟩
    exact ⟨x, stores', s', h, ⟨rfl, rfl⟩, rfl⟩

theorem runs_guard {c : Prop} [Decidable c] {e : HsmError} {k : α → Workflow β} {q : Workflow β} :
    Runs (fsMachine π) ((if c then throw e >>= k else q : Workflow β).locally stores) s
      (r, stores') s' ↔
      (c ∧ r = .error e ∧ stores' = stores ∧ s' = s) ∨
        ¬ c ∧ Runs (fsMachine π) (q.locally stores) s (r, stores') s' := by
  by_cases h : c
  · simp only [h, if_true, true_and, not_true_eq_false, false_and, or_false]
    exact runs_throw
  · simp only [h, if_false, false_and, not_false_eq_true, true_and, false_or]

end Workflow

end HsmRs
