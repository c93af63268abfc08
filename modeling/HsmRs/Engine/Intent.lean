import HsmRs.Engine.Steady

/-! # Intents

Work that the source owns: the engine claims it, runs the workflow of its action and
reports how that went. Uncertain errors are reported for a retry, all others as
definite.
-/

namespace HsmRs

inductive IntentStatus | ready | running | done | failed | superseded
  deriving DecidableEq

/-- Qualification for one claimed task. -/
structure IntentClaim where
  owner : String
  id : String
  epoch : Nat
  deriving DecidableEq

/-- Durable work owned by the source. -/
structure LifecycleIntent where
  id : String
  policy : String
  policyRevision : Nat
  version : Nat
  expected : EntityState
  action : ManagedAction
  context : OperationContext
  status : IntentStatus
  claim : Option IntentClaim
  lastError : Option String
  result : Option EntityState
  deriving DecidableEq

/-- Executor report. A source must independently confirm success. -/
inductive IntentCompletion
  | done
  | retry (message : String)
  | failed (message : String)
  | superseded (message : String)
  deriving DecidableEq

/-- The calls of `run_intent`: those of the workflows, and the two on the intent itself. -/
inductive IntentCall
  | claimIntent (ctx : OperationContext) (id owner : String)
  | finishIntent (ctx : OperationContext) (lease : LifecycleIntent) (report : IntentCompletion)
  | adapter (c : Call)

abbrev IntentCall.Ans : IntentCall → Type
  | adapter c => c.Ans
  | _ => HsmResult LifecycleIntent

abbrev intentSig : Sig := ⟨IntentCall, IntentCall.Ans⟩

def Workflow.within {α : Type} : Prog engineSig α → Prog intentSig α
  | .ret a => .ret a
  | .op c k => .op (.adapter c) fun x => within (k x)

namespace HsmEngine

def work (lease : LifecycleIntent) : Workflow IntentCompletion := do
  if (← completed lease.context lease.expected.data lease.action).isSome then
    return .done
  if (← inspectEntity lease.expected.data.entity) ≠ lease.expected then
    return .superseded "source observation changed"
  match lease.action with
  | .archive key => let _ ← archive lease.context lease.expected.data key
  | .release => let _ ← release lease.context lease.expected
  | .«recall» key => let _ ← «recall» lease.context lease.expected key
  return .done

/-- The text of an error, cut after 512 characters. -/
def clipped (e : HsmError) : String := String.ofList (e.display.toList.take 512)

def report : HsmResult IntentCompletion → IntentCompletion
  | .ok report => report
  | .error e => if e.Doubtful then .retry (clipped e) else .failed (clipped e)

def finishContext (lease : LifecycleIntent) (claim : IntentClaim) : OperationContext :=
  ⟨claim.id ++ ":finish", lease.context.controllerEpoch, 1⟩

def finish (lease : LifecycleIntent) (result : HsmResult IntentCompletion) :
    Prog intentSig (HsmResult LifecycleIntent) :=
  match lease.claim with
  | none => .ret (.error (.integrity "running intent has no claim"))
  | some claim => .op (.finishIntent (finishContext lease claim) lease (report result)) .ret

/-- Execute one storage-owned intent. -/
def runIntent (claimContext : OperationContext) (id owner : String) :
    Prog intentSig (HsmResult LifecycleIntent) :=
  .op (.claimIntent claimContext id owner) fun
    | .error e => .ret (.error e)
    | .ok lease =>
        if lease.status ≠ .running then .ret (.ok lease)
        else Workflow.within (work lease).run >>= finish lease

def lifted (e : Event engineSig) : Event intentSig := ⟨.adapter e.op, e.answer⟩

theorem traces_within {α : Type} {C : List (Event intentSig) → intentSig.Op → Prop}
    {Q : α → List (Event intentSig) → Prop} {p : Prog engineSig α} {past : List (Event intentSig)}
    (calls : List (Event engineSig))
    (h : p.Traces (fun calls c => C (past ++ calls.map lifted) (.adapter c))
      (fun a calls => Q a (past ++ calls.map lifted)) calls) :
    (Workflow.within p).Traces C Q (past ++ calls.map lifted) := by
  induction p generalizing calls with
  | ret a =>
    have := Prog.traces_ret.mp h
    exact Prog.traces_ret.mpr this
  | op c k ih =>
    obtain ⟨hc, hk⟩ := Prog.traces_op.mp h
    refine Prog.traces_op.mpr ⟨hc, fun x => ?_⟩
    have := ih x _ (hk x)
    rw [List.map_append, ← List.append_assoc] at this
    exact this

/-! ## What the report says -/

/-- The calls that serve an action: questions always, effects if they are its own. -/
def Serves (action : ManagedAction) : Call → Prop
  | .storage (.completed _ _ _) | .storage (.inspect _) | .backend (.inspect _) => True
  | .storage (.prepareArchive _ _) | .storage (.commitArchive _ _ _) | .backend (.prepare _ _ _)
  | .backend (.resumeCommit _ _ _) | .backend (.commit _ _ _ _) => ∃ key, action = .archive key
  | .storage (.release _ _) => action = .release
  | .storage (.prepareRecall _ _ _) | .storage (.commitRecall _ _ _) | .backend (.open _) =>
      ∃ key, action = .«recall» key
  | .copy _ _ _ => action ≠ .release

/-- What the work has come to, by the calls it has made. -/
inductive Reported (lease : LifecycleIntent) (calls : List (Event engineSig)) :
    IntentCompletion → Prop where
  | completed {s : EntityState} :
      ⟨.storage (.completed lease.context lease.expected.data lease.action), .ok (some s)⟩ ∈ calls →
      Reported lease calls .done
  | acted {e : Event engineSig} {s : EntityState} :
      ⟨.storage (.inspect lease.expected.data.entity), .ok lease.expected⟩ ∈ calls → e ∈ calls →
      Answered lease.context lease.expected.data lease.action e s → Reported lease calls .done
  | stale {s : EntityState} :
      ⟨.storage (.completed lease.context lease.expected.data lease.action), .ok none⟩ ∈ calls →
      ⟨.storage (.inspect lease.expected.data.entity), .ok s⟩ ∈ calls → s ≠ lease.expected →
      Reported lease calls (.superseded "source observation changed")

/-- A report is borne out by the calls before it. -/
structure Sound (lease : LifecycleIntent) (calls : List (Event engineSig))
    (report : IntentCompletion) : Prop where
  definite : report = .done ∨ (∃ m, report = .superseded m) → Reported lease calls report
  retry : (∃ e ∈ calls, e.Doubtful) → ∃ m, report = .retry m

section

variable {lease : LifecycleIntent}

theorem stops_work {B : Event engineSig → Prop} {D : HsmError → Prop} (hp : Passed B D) :
    Prog.Stops B D (work lease) := by
  refine Prog.Stops.bind (stops_completed hp) fun r => .ite .pure ?_
  refine Prog.Stops.bind (stops_inspectEntity hp) fun actual => .ite .pure ?_
  cases lease.action with
  | archive key => exact Prog.Stops.bind (stops_archive hp) fun _ => .pure
  | release => exact Prog.Stops.bind (stops_release hp) fun _ => .pure
  | «recall» key => exact Prog.Stops.bind (stops_recall hp) fun _ => .pure

theorem serves_archive {ctx : OperationContext} {data : DataKey} {key : ArchiveKey} :
    (archive ctx data key).run.Within (Serves (.archive key)) := by
  refine (traces_archive.mono (fun _ c h => ?_) fun _ _ h => h).within
  cases h <;> first | trivial | exact ⟨_, rfl⟩ | exact nofun

theorem serves_release {ctx : OperationContext} {expected : EntityState} :
    (release ctx expected).run.Within (Serves .release) := by
  refine (traces_release.mono (fun _ c h => ?_) fun _ _ h => h).within
  cases h <;> trivial

theorem serves_recall {ctx : OperationContext} {expected : EntityState} {key : ArchiveKey} :
    («recall» ctx expected key).run.Within (Serves (.«recall» key)) := by
  refine (traces_recall.mono (fun _ c h => ?_) fun _ _ h => h).within
  cases h <;> first | trivial | exact ⟨_, rfl⟩ | exact nofun

theorem traces_act {w : Workflow EntityState} {past : List (Event engineSig)}
    (inspected : ⟨.storage (.inspect lease.expected.data.entity), .ok lease.expected⟩ ∈ past)
    (serves : w.run.Within (Serves lease.action))
    (concludes : w.Concludes (Answered lease.context lease.expected.data lease.action)) :
    (w >>= fun _ => pure IntentCompletion.done).run.Traces (fun _ c => Serves lease.action c)
      (fun r calls => ∀ report, r = .ok report → Reported lease calls report) past := by
  rw [Prog.traces_run_bind]
  refine (serves.traces.and (Prog.traces_grow.and (concludes past))).mono (fun _ _ h => h.1) ?_
  rintro (e | s) calls ⟨-, grown, h⟩
  · exact nofun
  · refine Prog.traces_ret.mpr ?_
    rintro _ ⟨⟩
    obtain ⟨e, he, ha⟩ := h s rfl
    exact .acted (grown.subset inspected) he ha

theorem traces_work : (work lease).run.Traces (fun _ c => Serves lease.action c)
    (fun r calls => ∀ report, r = .ok report → Reported lease calls report) [] := by
  unfold work
  refine Prog.traces_call.mpr ⟨trivial, ?_⟩
  rintro (e | _ | s)
  · exact nofun
  · refine Prog.traces_call.mpr ⟨trivial, ?_⟩
    rintro (e | actual)
    · exact nofun
    dsimp only
    by_cases same : actual = lease.expected
    · subst same
      rw [if_neg (by simp)]
      have inspected : (⟨.storage (.inspect lease.expected.data.entity), .ok lease.expected⟩ :
          Event engineSig) ∈ [] ++
            [⟨.storage (.completed lease.context lease.expected.data lease.action), .ok none⟩] ++
            [⟨.storage (.inspect lease.expected.data.entity), .ok lease.expected⟩] := by simp
      have act := @traces_act lease
      cases ha : lease.action with
      | archive key =>
        rw [ha] at act inspected
        exact act inspected serves_archive concludes_archive
      | release =>
        rw [ha] at act inspected
        exact act inspected serves_release concludes_release
      | «recall» key =>
        rw [ha] at act inspected
        exact act inspected serves_recall concludes_recall
    · rw [if_pos same]
      refine Prog.traces_ret.mpr ?_
      rintro _ ⟨⟩
      exact .stale (by simp) (by simp) same
  · refine Prog.traces_ret.mpr ?_
    rintro _ ⟨⟩
    exact .completed (s := s) (by simp)

theorem report_ok {r : IntentCompletion} : report (.ok r) = r := rfl

theorem report_error {e : HsmError} :
    report (.error e) = if e.Doubtful then .retry (clipped e) else .failed (clipped e) := rfl

theorem traces_report : (work lease).run.Traces (fun _ c => Serves lease.action c)
    (fun r calls => Sound lease calls (report r)) [] := by
  have stops := (@stops_work lease _ _ passed_doubtful).run
  refine (traces_work.and stops).mono (fun _ _ h => h.1) ?_
  rintro (e | r) calls ⟨reported, stops⟩
  · rw [report_error]
    constructor
    · intro h
      split at h <;> rcases h with h | ⟨m, h⟩ <;> cases h
    · rintro ⟨x, hx, hd⟩
      obtain ⟨_, he, hd⟩ := stops ⟨x, hx, hd⟩
      cases he
      exact ⟨clipped e, if_pos hd⟩
  · rw [report_ok]
    constructor
    · exact fun _ => reported r rfl
    · rintro ⟨x, hx, hd⟩
      obtain ⟨_, he, -⟩ := stops ⟨x, hx, hd⟩
      cases he

end

/-- What `run_intent` does, and after what. -/
inductive Intends (claimContext : OperationContext) (id owner : String)
    (past : List (Event intentSig)) : IntentCall → Prop where
  | claim : Intends claimContext id owner past (.claimIntent claimContext id owner)
  | adapter {lease : LifecycleIntent} {calls : List (Event engineSig)} {c : Call} :
      past = [⟨.claimIntent claimContext id owner, .ok lease⟩] ++ calls.map lifted →
      lease.status = .running → Serves lease.action c →
      Intends claimContext id owner past (.adapter c)
  | finish {lease : LifecycleIntent} {claim : IntentClaim} {calls : List (Event engineSig)}
      {report : IntentCompletion} :
      past = [⟨.claimIntent claimContext id owner, .ok lease⟩] ++ calls.map lifted →
      lease.status = .running → lease.claim = some claim → Sound lease calls report →
      Intends claimContext id owner past (.finishIntent (finishContext lease claim) lease report)

theorem traces_finish {claimContext : OperationContext} {id owner : String}
    {lease : LifecycleIntent} {r : HsmResult IntentCompletion} {calls : List (Event engineSig)}
    (running : lease.status = .running) (sound : Sound lease calls (report r)) :
    (finish lease r).Traces (Intends claimContext id owner) (fun _ _ => True)
      ([⟨.claimIntent claimContext id owner, .ok lease⟩] ++ calls.map lifted) := by
  unfold finish
  cases hc : lease.claim with
  | none => exact Prog.traces_ret.mpr trivial
  | some claim =>
    exact Prog.traces_op.mpr ⟨.finish rfl running hc sound, fun _ => Prog.traces_ret.mpr trivial⟩

theorem traces_runIntent {claimContext : OperationContext} {id owner : String} :
    (runIntent claimContext id owner).Traces (Intends claimContext id owner)
      (fun _ _ => True) [] := by
  refine Prog.traces_op.mpr ⟨.claim, ?_⟩
  rintro (e | lease)
  · exact Prog.traces_ret.mpr trivial
  dsimp only
  by_cases running : lease.status = .running
  · rw [if_neg (not_not.mpr running), Prog.traces_bind]
    exact traces_within [] (traces_report.mono (fun calls c serves => .adapter rfl running serves)
      fun r calls sound => traces_finish running sound)
  · rw [if_pos running]
    exact Prog.traces_ret.mpr trivial

/-- What `run_intent` reports to the storage is borne out by the answers it got after the claim,
and of the effects it asks for only those of the lease's own action. -/
theorem report_sound (claimContext : OperationContext) (id owner : String) :
    ∀ past c, (runIntent claimContext id owner).Makes past c →
      Intends claimContext id owner past c :=
  fun _ _ h => traces_runIntent.makes h

def lease : LifecycleIntent :=
  ⟨"i", "p", 1, 2, twice, .release, ⟨"release", 1, 1⟩, .running, some ⟨"w", "c", 1⟩, none, none⟩

theorem report_sound_lease : ∃ past,
    Intends ⟨"claim", 1, 1⟩ "i" "w" past (.finishIntent ⟨"c:finish", 1, 1⟩ lease .done) := by
  have h : ∃ past, (runIntent ⟨"claim", 1, 1⟩ "i" "w").Makes past
      (.finishIntent ⟨"c:finish", 1, 1⟩ lease .done) := by
    apply Exists.intro
    exact .later (x := .ok lease) rfl (.later (x := .ok (some offline)) rfl (.torn rfl))
  obtain ⟨past, h⟩ := h
  exact ⟨past, report_sound _ _ _ past _ h⟩

end HsmEngine

end HsmRs
