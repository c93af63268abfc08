import HsmRs.Engine.Transfers

/-! # How the workflows end

An uncertain answer ends a workflow at once, with an uncertain error, and a workflow
that succeeds returns what the storage has answered to its last call or to the query
for an earlier outcome.
-/

namespace HsmRs

/-- The outcome may be known later, or by asking again. -/
def HsmError.Doubtful : HsmError → Prop
  | .unknown _ | .io _ | .busy _ => True
  | _ => False

instance : DecidablePred HsmError.Doubtful
  | .unknown _ | .io _ | .busy _ => .isTrue trivial
  | .invalid _ | .conflict _ | .notFound _ | .fenced | .integrity _ | .unsupported _ => .isFalse id

def HsmResult.failure {α : Type} : HsmResult α → Option HsmError
  | .ok _ => none
  | .error e => some e

def Call.failure : (c : Call) → c.Ans → Option HsmError
  | .storage (.completed _ _ _), x => HsmResult.failure x
  | .storage (.inspect _), x => HsmResult.failure x
  | .storage (.prepareArchive _ _), x => HsmResult.failure x
  | .storage (.commitArchive _ _ _), x => HsmResult.failure x
  | .storage (.release _ _), x => HsmResult.failure x
  | .storage (.prepareRecall _ _ _), x => HsmResult.failure x
  | .storage (.commitRecall _ _ _), x => HsmResult.failure x
  | .backend (.inspect _), x => HsmResult.failure x
  | .backend (.prepare _ _ _), x => HsmResult.failure x
  | .backend (.resumeCommit _ _ _), x => HsmResult.failure x
  | .backend (.commit _ _ _ _), x => HsmResult.failure x
  | .backend (.open _), x => HsmResult.failure x
  | .copy _ _ _, x => HsmResult.failure x

/-- The adapter has answered `Unknown`, `Io` or `Busy`, or the backend does not know. -/
inductive Event.Doubtful : Event engineSig → Prop
  | error {c : Call} {x : c.Ans} {e : HsmError} : c.failure x = some e →
      e.Doubtful → Doubtful ⟨c, x⟩
  | status {key : ArchiveKey} {status : ArchiveStatus} : status.Uncertain →
      Doubtful ⟨.backend (.inspect key), .ok status⟩

/-- Answers that a workflow passes on: errors, and undecided statuses where what the workflow
makes of them is an error of the same kind. -/
structure Passed (B : Event engineSig → Prop) (D : HsmError → Prop) : Prop where
  error : ∀ c x, (∀ key, c ≠ .backend (.inspect key)) → B ⟨c, x⟩ →
    ∃ e, c.failure x = some e ∧ D e
  status : ∀ key x, B ⟨.backend (.inspect key), x⟩ → (∃ e, x = .error e ∧ D e) ∨
    ∃ status, x = .ok status ∧ status.Uncertain ∧ ∀ m, D (.unknown m)

theorem passed_doubtful : Passed Event.Doubtful HsmError.Doubtful where
  error c x hc h := by
    cases h with
    | error he hd => exact ⟨_, he, hd⟩
    | status => exact (hc _ rfl).elim
  status key x h := by
    cases h with
    | error he hd => cases x <;> cases he; exact .inl ⟨_, rfl, hd⟩
    | status hu => exact .inr ⟨_, rfl, hu, fun _ => trivial⟩

def Event.Raises (D : HsmError → Prop) (e : Event engineSig) : Prop :=
  ∃ err, e.op.failure e.answer = some err ∧ D err

theorem passed_raises {D : HsmError → Prop} : Passed (Event.Raises D) D where
  error _ _ _ := id
  status _ x h := by
    obtain ⟨e, he, hd⟩ := h
    cases x <;> cases he
    exact .inl ⟨_, rfl, hd⟩

/-- What the workflow returns has been answered to it, as `A` says. -/
def Workflow.Concludes {α : Type} (A : Event engineSig → α → Prop) (w : Workflow α) : Prop :=
  ∀ past, w.run.Traces (fun _ _ => True) (fun r past' => ∀ a, r = .ok a → ∃ e ∈ past', A e a) past

namespace Workflow

variable {α β : Type} {w : Workflow α} {f : α → Workflow β}

namespace Concludes

variable {A : Event engineSig → β → Prop}

theorem bind (hf : ∀ a, (f a).Concludes A) : (w >>= f).Concludes A := by
  intro past
  rw [Prog.traces_run_bind]
  have any : w.run.Within fun _ => True := by
    generalize w.run = p
    induction p with
    | ret => trivial
    | op o k ih => exact ⟨trivial, ih⟩
  refine any.traces.mono (fun _ _ _ => trivial) ?_
  rintro (e | a) past' -
  · exact nofun
  · exact hf a past'

theorem throw {e : HsmError} : (MonadExcept.throw e : Workflow β).Concludes A := fun _ =>
  Prog.traces_ret.mpr nofun

theorem call {c : Call} {g : c.Ans → HsmResult β} (hg : ∀ x b, g x = .ok b → A ⟨c, x⟩ b) :
    Workflow.Concludes A (ExceptT.mk (.op c fun x => .ret (g x)) : Workflow β) := fun _ =>
  Prog.traces_op.mpr ⟨trivial, fun x => Prog.traces_ret.mpr fun b hb =>
    ⟨_, List.mem_append_right _ (List.mem_singleton_self _), hg x b hb⟩⟩

theorem completed {ctx : OperationContext} {data : DataKey} {action : ManagedAction}
    {A : Event engineSig → EntityState → Prop} {f : Option EntityState → Workflow EntityState}
    (some : ∀ s, f (some s) = pure s)
    (found : ∀ s, A ⟨.storage (.completed ctx data action), .ok (.some s)⟩ s)
    (none : (f none).Concludes A) : (HsmEngine.completed ctx data action >>= f).Concludes A := by
  intro past
  refine Prog.traces_call.mpr ⟨trivial, ?_⟩
  rintro (e | _ | s)
  · exact nofun
  · exact none _
  · dsimp only
    rw [some]
    refine Prog.traces_ret.mpr ?_
    rintro _ ⟨⟩
    exact ⟨_, List.mem_append_right _ (List.mem_singleton_self _), found s⟩

end Concludes

end Workflow

namespace HsmEngine

open Workflow Prog

variable {ctx : OperationContext} {data : DataKey} {key : ArchiveKey} {expected : EntityState}

/-! ## The three workflows -/

section

variable {B : Event engineSig → Prop} {D : HsmError → Prop}

theorem stops_call {α : Type} (hp : Passed B D) {c : Call} {g : c.Ans → HsmResult α}
    (hg : ∀ x e, c.failure x = some e → g x = .error e) (hc : ∀ key, c ≠ .backend (.inspect key)) :
    Stops B D (ExceptT.mk (.op c fun x => .ret (g x)) : Workflow α) :=
  Stops.call fun x hb => by
    obtain ⟨e, he, hd⟩ := hp.error c x hc hb
    exact ⟨e, hg x e he, hd⟩

/-- The question for an archive, where an undecided answer is turned into an uncertain error. -/
theorem stops_inspect {α : Type} (hp : Passed B D) {f : ArchiveStatus → Workflow α}
    (decided : ∀ status, ¬ status.Uncertain → Stops B D (f status))
    (uncertain : ∀ status, status.Uncertain → ∃ m, f status = throw (.unknown m)) :
    Stops B D (inspectArchive key >>= f) := by
  refine Stops.call_bind (fun x hb => ?_) fun x status _ _ => ?_
  · rcases hp.status key x hb with h | ⟨status, rfl, hu, hd⟩
    · exact .inl h
    · obtain ⟨m, hm⟩ := uncertain status hu
      exact .inr ⟨status, .unknown m, rfl, hm, hd m⟩
  · by_cases hu : status.Uncertain
    · obtain ⟨m, hm⟩ := uncertain status hu
      rw [hm]
      exact .throw
    · exact decided status hu

theorem stops_completed {action : ManagedAction} (hp : Passed B D) :
    Stops B D (completed ctx data action) :=
  stops_call hp (fun x e h => by cases x <;> cases h; rfl) nofun

theorem stops_copy {source destination : DataEndpoint} (hp : Passed B D) :
    Stops B D (copy ctx source destination) :=
  stops_call hp (fun x e h => by cases x <;> cases h; rfl) nofun

theorem stops_attach (hp : Passed B D) {view : DataView} {receipt : ArchiveReceipt} :
    Stops B D (attach ctx data key view receipt) :=
  Stops.bind .check fun _ => stops_call hp (fun x e h => by cases x <;> cases h; rfl) nofun

theorem stops_upload {view : DataView} (hp : Passed B D) :
    Stops B D (upload ctx key view) := by
  refine Stops.bind (stops_call hp (fun x e h => by cases x <;> cases h; rfl) nofun)
    fun target => ?_
  refine Stops.bind (stops_call hp (fun x e h => by cases x <;> cases h; rfl) nofun) fun r => ?_
  cases r with
  | some receipt => exact .pure
  | none =>
    refine Stops.bind (stops_copy hp) fun evidence => .ite .throw ?_
    exact stops_call hp (fun x e h => by cases x <;> cases h; rfl) nofun

theorem stops_archive (hp : Passed B D) : Stops B D (archive ctx data key) := by
  refine Stops.bind .check fun _ => Stops.bind (stops_completed hp) fun r => ?_
  cases r with
  | some result => exact .pure
  | none =>
    refine Stops.bind (stops_call hp (fun x e h => by cases x <;> cases h; rfl) nofun)
      fun view => ?_
    refine stops_inspect hp (fun status hu => ?_) fun status hu => ?_
    · cases status with
      | committed receipt => exact (stops_attach hp)
      | absent => exact Stops.bind (stops_upload hp) fun _ => (stops_attach hp)
      | pending => exact (hu trivial).elim
      | unknown => exact (hu trivial).elim
    · cases status <;> first | exact hu.elim | exact ⟨_, rfl⟩

theorem stops_verifyAnchors (hp : Passed B D) {anchors : List ArchiveReceipt} :
    Stops B D (verifyAnchors expected anchors) := by
  induction anchors with
  | nil => exact .pure
  | cons anchor rest ih =>
    refine Stops.bind .check fun _ => stops_inspect hp (fun status hu => ?_) fun status hu => ?_
    · cases status with
      | committed actual => exact .ite .pure ih
      | absent => exact ih
      | pending => exact (hu trivial).elim
      | unknown => exact (hu trivial).elim
    · cases status <;> first | exact hu.elim | exact ⟨_, rfl⟩

theorem stops_inspectEntity {entity : EntityKey} (hp : Passed B D) :
    Stops B D (inspectEntity entity) :=
  stops_call hp (fun x e h => by cases x <;> cases h; rfl) nofun

theorem stops_release (hp : Passed B D) : Stops B D (release ctx expected) := by
  refine Stops.bind .check fun _ => Stops.bind (stops_completed hp) fun r => ?_
  cases r with
  | some result => exact .pure
  | none =>
    refine Stops.bind (stops_inspectEntity hp) fun actual => .ite .throw (.ite .throw ?_)
    refine Stops.bind (stops_verifyAnchors hp) fun verified => .ite ?_ .throw
    exact stops_call hp (fun x e h => by cases x <;> cases h; rfl) nofun

theorem stops_recall (hp : Passed B D) : Stops B D («recall» ctx expected key) := by
  refine Stops.bind .check fun _ => Stops.bind (stops_completed hp) fun r => ?_
  cases r with
  | some result => exact .pure
  | none =>
    refine .ite .throw ?_
    cases expected.anchors.find? (fun a => a.key = key) with
    | none => exact .throw
    | some anchor =>
      have rest : Stops B D ((do
          let target ← ExceptT.mk (storage (.prepareRecall ctx expected anchor))
          let source ← ExceptT.mk (backend (.open anchor))
          let evidence ← copy ctx source target.destination
          if evidence.length ≠ expected.length ∨ evidence.digest ≠ expected.digest then
            throw (.integrity "recall content differs from anchor")
          ExceptT.mk (storage (.commitRecall ctx target evidence)) : Workflow EntityState)) := by
        refine Stops.bind (stops_call hp (fun x e h => by cases x <;> cases h; rfl) nofun)
          fun target => ?_
        refine Stops.bind (stops_call hp (fun x e h => by cases x <;> cases h; rfl) nofun)
          fun source => ?_
        refine Stops.bind (stops_copy hp) fun evidence => .ite .throw ?_
        exact stops_call hp (fun x e h => by cases x <;> cases h; rfl) nofun
      refine Stops.bind .check fun _ => stops_inspect hp (fun status hu => ?_) fun status hu => ?_
      · cases status with
        | committed actual => exact .ite .throw rest
        | absent => exact .throw
        | pending => exact (hu trivial).elim
        | unknown => exact (hu trivial).elim
      · cases status <;> first | exact hu.elim | exact ⟨_, rfl⟩

end

/-- The storage has answered this state to the query for the outcome of the action, or to the
call that commits the action. -/
inductive Answered (ctx : OperationContext) (data : DataKey) (action : ManagedAction) :
    Event engineSig → EntityState → Prop where
  | completed {s : EntityState} :
      Answered ctx data action ⟨.storage (.completed ctx data action), .ok (some s)⟩ s
  | archived {key : ArchiveKey} {view : DataView} {receipt : ArchiveReceipt} {s : EntityState} :
      action = .archive key →
      Answered ctx data action ⟨.storage (.commitArchive ctx view receipt), .ok s⟩ s
  | released {expected s : EntityState} : action = .release →
      Answered ctx data action ⟨.storage (.release ctx expected), .ok s⟩ s
  | recalled {key : ArchiveKey} {target : RecallTarget} {evidence : TransferEvidence}
      {s : EntityState} : action = .«recall» key →
      Answered ctx data action ⟨.storage (.commitRecall ctx target evidence), .ok s⟩ s

theorem concludes_archive :
    (archive ctx data key).Concludes (Answered ctx data (.archive key)) := by
  refine Concludes.bind fun _ => Concludes.completed (fun _ => rfl) (fun _ => .completed) ?_
  have attached : ∀ {view receipt}, (attach ctx data key view receipt).Concludes
      (Answered ctx data (.archive key)) := fun {_ _} =>
    Concludes.bind fun _ => Concludes.call fun x s h => by cases h; exact .archived rfl
  refine Concludes.bind fun view => Concludes.bind fun status => ?_
  cases status with
  | committed receipt => exact attached
  | absent => exact Concludes.bind fun _ => attached
  | pending => exact .throw
  | unknown => exact .throw

theorem concludes_ite {A : Event engineSig → EntityState → Prop} {c : Prop} [Decidable c]
    {p q : Workflow EntityState} (hp : p.Concludes A) (hq : q.Concludes A) :
    (if c then p else q).Concludes A := by
  split
  · exact hp
  · exact hq

theorem concludes_release :
    (release ctx expected).Concludes (Answered ctx expected.data .release) := by
  refine Concludes.bind fun _ => Concludes.completed (fun _ => rfl) (fun _ => .completed) ?_
  refine Concludes.bind fun actual => concludes_ite .throw (concludes_ite .throw ?_)
  refine Concludes.bind fun verified => concludes_ite ?_ .throw
  exact Concludes.call fun x s h => by cases h; exact .released rfl

theorem concludes_recall :
    («recall» ctx expected key).Concludes (Answered ctx expected.data (.«recall» key)) := by
  refine Concludes.bind fun _ => Concludes.completed (fun _ => rfl) (fun _ => .completed) ?_
  refine concludes_ite .throw ?_
  cases expected.anchors.find? (fun a => a.key = key) with
  | none => exact .throw
  | some anchor =>
    refine Concludes.bind fun _ => Concludes.bind fun status => ?_
    cases status with
    | committed actual =>
      refine concludes_ite .throw ?_
      refine Concludes.bind fun target => Concludes.bind fun source =>
        Concludes.bind fun evidence =>
        concludes_ite .throw ?_
      exact Concludes.call fun x s h => by cases h; exact .recalled rfl
    | absent => exact .throw
    | pending => exact .throw
    | unknown => exact .throw

end HsmEngine

end HsmRs
