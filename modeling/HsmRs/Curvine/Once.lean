import HsmRs.Curvine.Lanes

/-! # A worker that is run once

It does one cycle over all work, prints its report, and succeeds only if none of the tasks it has
run is left to be retried or has failed.
-/

namespace HsmRs

def CycleReport.ran (report : CycleReport) (intent : LifecycleIntent) : CycleReport :=
  { report with
    failed := report.failed + if intent.status = .failed then 1 else 0
    retry := report.retry + if intent.status = .ready then 1 else 0
    executed := report.executed + 1 }

namespace Cycle

/-! ## What a report counts -/

def result : Event cycleSig → Option LifecycleIntent
  | ⟨.runIntent _ _ _, .ok intent⟩ => some intent
  | _ => none

def results (calls : List (Event cycleSig)) : List LifecycleIntent := calls.filterMap result

structure Tallies (I : CycleReport → List (Event cycleSig) → Prop) : Prop where
  quiet : ∀ {report past e}, I report past → result e = none → I report (past ++ [e])
  admitted : ∀ {report past} n, I report past → I { report with admitted := n } past
  ran : ∀ {report past ctx id owner intent}, I report past →
    I (report.ran intent) (past ++ [⟨.runIntent ctx id owner, .ok intent⟩])

variable {I : CycleReport → List (Event cycleSig) → Prop} {fuel : Nat} {definitions : Definitions}
  {backendId : String} {epoch : Nat} {owner : String} {maxActions : Nat}
  {«class» : Option WorkClass}
  {report : CycleReport} {past : List (Event cycleSig)} {α β ε : Type}

/-- The program keeps the relation: it holds of the report in each of its results. -/
def Keeps (I : CycleReport → List (Event cycleSig) → Prop) (told : α → CycleReport)
    (p : ExceptT ε (Prog cycleSig) α) (past : List (Event cycleSig)) : Prop :=
  p.run.Traces (fun _ _ => True) (fun r past => ∀ a, r = .ok a → I (told a) past) past

namespace Keeps

theorem ret {a : α} {told : α → CycleReport} (hi : I (told a) past) :
    Keeps I told (pure a : ExceptT ε (Prog cycleSig) α) past := by
  refine Prog.traces_ret.mpr ?_
  rintro _ ⟨⟩
  exact hi

theorem bind {p : ExceptT ε (Prog cycleSig) α} {f : α → ExceptT ε (Prog cycleSig) β}
    {told : α → CycleReport} {told' : β → CycleReport} (hp : Keeps I told p past)
    (hf : ∀ a past, I (told a) past → Keeps I told' (f a) past) : Keeps I told' (p >>= f) past := by
  refine Prog.traces_run_bind.mpr (Prog.Traces.mono hp (fun _ _ h => h) ?_)
  rintro (e | a) past hi
  · exact nofun
  · exact hf a past (hi a rfl)

theorem leaving {p : Cycle α} {told : α → CycleReport} (hp : Keeps I told p past) :
    Keeps I told (leaving report p) past := by
  refine Prog.traces_bind.mpr (Prog.Traces.mono hp (fun _ _ h => h) ?_)
  rintro (e | a) past hi
  · exact Prog.traces_ret.mpr nofun
  · refine Prog.traces_ret.mpr ?_
    rintro _ ⟨⟩
    exact hi a rfl

theorem outcome {p : Reporting α} {told : α → CycleReport} (hp : Keeps I told p past) :
    Keeps I told (outcome p) past := by
  refine traces_outcome.mpr (Prog.Traces.mono hp (fun _ _ h => h) ?_)
  rintro (e | a) past hi
  · exact nofun
  · rintro _ ⟨⟩
    exact hi a rfl

theorem loop {σ : Type} {t : σ → CycleReport} {told : α → CycleReport}
    {body : σ → ExceptT ε (Prog cycleSig) (σ ⊕ α)} {s : σ} {n : Nat}
    (round : ∀ s past, I (t s) past → Keeps I (Sum.elim t told) (body s) past)
    (hi : I (t s) past) : Keeps I told (Prog.loop (Prog.stuck .spin id) body n s) past := by
  refine Prog.traces_loop (I := fun _ s past => I (t s) past) ?_ ?_ hi
  · exact fun _ _ _ => Prog.traces_op.mpr ⟨trivial, nofun⟩
  · intro _ s past hi
    refine Prog.Traces.mono (round s past hi) (fun _ _ h => h) ?_
    rintro (e | s | r) past hi
    · exact nofun
    · exact hi _ rfl
    · rintro _ ⟨⟩
      exact hi _ rfl

end Keeps

namespace Tallies

variable (h : Tallies I)
include h

theorem call {o : CycleOp} {g : o.Ans → Except ε α} (quiet : ∀ x, result ⟨o, x⟩ = none)
    (hi : I report past) : Keeps I (fun _ => report) (Prog.call o g) past :=
  Prog.traces_last.mpr ⟨trivial, fun x _ _ => h.quiet hi (quiet x)⟩

theorem context (hi : I report past) : Keeps I (fun _ => report) (Cycle.context epoch) past :=
  Keeps.bind (h.call (fun _ => rfl) hi) fun _ _ hi => Keeps.ret hi

theorem executeItem {intent : LifecycleIntent} (hi : I report past) :
    Keeps I (Sum.elim id id) (Cycle.executeItem definitions backendId epoch owner maxActions «class»
      report intent) past := by
  refine Prog.traces_guard.mpr ⟨fun _ => nofun, fun _ => ?_⟩
  split
  · exact Keeps.ret hi
  split
  · exact Keeps.ret hi
  refine Keeps.bind (Keeps.leaving (h.context hi)) fun ctx past hi =>
    traces_leaving_call.mpr ⟨trivial, fun x => ?_⟩
  cases x with
  | error e =>
    have hi := h.quiet (e := ⟨.runIntent ctx intent.id owner, .error e⟩) hi rfl
    cases e with
    | busy | conflict => exact Keeps.ret hi
    | _ => exact Prog.traces_ret.mpr nofun
  | ok intent' =>
    have ran : I (report.ran intent') (past ++ [⟨.runIntent ctx intent.id owner, .ok intent'⟩]) :=
      h.ran hi
    refine Keeps.bind (Keeps.leaving (h.call (fun _ => rfl) ran)) fun _ past hi => ?_
    dsimp only
    split <;> exact Keeps.ret hi

theorem executeItems {items : List LifecycleIntent} (hi : I report past) :
    Keeps I (Sum.elim id id)
      (Cycle.executeItems definitions backendId epoch owner maxActions «class»
      report items) past := by
  induction items generalizing report past with
  | nil => exact Keeps.ret hi
  | cons intent items ih =>
    refine Keeps.bind (h.executeItem hi) fun r past hi => ?_
    cases r with
    | inl report => exact ih hi
    | inr report => exact Keeps.ret hi

theorem listReady {after : Option String} (hi : I report past) :
    Keeps I (fun _ => report) (Cycle.listReady epoch «class» after) past := by
  unfold Cycle.listReady
  cases «class» with
  | none => exact Keeps.bind (h.context hi) fun ctx past hi => h.call (fun _ => rfl) hi
  | some c => exact Keeps.bind (h.context hi) fun ctx past hi => h.call (fun _ => rfl) hi

theorem executeReady (hi : I report past) :
    Keeps I id (Cycle.executeReady fuel definitions backendId
    epoch owner maxActions «class» report) past := by
  unfold Cycle.executeReady
  split
  · exact Keeps.ret hi
  refine Keeps.loop (t := Prod.snd) (fun state past hi => ?_) hi
  refine Keeps.bind (Keeps.leaving (h.listReady hi)) fun page past hi =>
    Keeps.bind (h.executeItems hi) fun r past hi => ?_
  cases r with
  | inl report =>
    dsimp only
    split <;> exact Keeps.ret hi
  | inr report => exact Keeps.ret hi

theorem sealAll {data : List DataKey} (hi : I report past) :
    Keeps I (fun _ => report) (Cycle.sealAll data) past := by
  induction data generalizing past with
  | nil => exact Keeps.ret hi
  | cons d rest ih => exact Keeps.bind (h.call (fun _ => rfl) hi) fun _ past hi => ih hi

theorem scanPolicies {selected : List LifecyclePolicy} (hi : I report past) :
    Keeps I id (Cycle.scanPolicies fuel epoch selected report) past := by
  induction selected generalizing report past with
  | nil => exact Keeps.ret hi
  | cons policy rest ih =>
    refine Keeps.bind (Keeps.loop (t := Prod.snd) (fun state past hi => ?_) hi)
      fun report past hi => ih hi
    refine Keeps.bind (Keeps.leaving (h.context hi)) fun ctx past hi => ?_
    refine Keeps.bind (Keeps.leaving (h.call (fun _ => rfl) hi)) fun batch past hi => ?_
    have hi := h.admitted (state.2.admitted + batch.admitted.length) hi
    refine Keeps.bind (Keeps.leaving (h.sealAll hi)) fun _ past hi => ?_
    split <;> exact Keeps.ret hi

theorem sealPending {data : List DataKey} (hi : I report past) :
    Keeps I id
      (Cycle.sealPending fuel backendId epoch owner maxActions definitions «class» data report)
      past := by
  induction data generalizing report past with
  | nil => exact Keeps.ret hi
  | cons d rest ih =>
    refine Keeps.bind (Keeps.leaving (h.call (fun _ => rfl) hi)) fun _ past hi => ?_
    exact Keeps.bind (h.executeReady hi) fun report past hi => ih hi

theorem listDefinitions (hi : I report past) :
    Keeps I (fun _ => report) (Cycle.definitions fuel epoch) past := by
  refine Keeps.loop (t := fun _ => report) (fun state past hi => ?_) hi
  refine Keeps.bind (h.context hi) fun ctx past hi => Keeps.bind (h.call (fun _ => rfl) hi)
    fun page past hi => ?_
  dsimp only
  split <;> exact Keeps.ret hi

theorem cycle (hi : ∀ lane, I (emptyReport lane) []) :
    Keeps I id (Cycle.cycle fuel backendId epoch owner maxActions «class») [] := by
  refine Keeps.outcome (Keeps.bind (Keeps.leaving (h.call (fun _ => rfl)
    (hi («class».elim "all" WorkClass.asStr)))) fun _ past hi => ?_)
  refine Keeps.bind (Keeps.leaving (h.listDefinitions hi)) fun definitions past hi => ?_
  refine Keeps.bind (h.executeReady hi) fun report past hi => ?_
  refine Keeps.bind (Keeps.leaving (h.call (fun _ => rfl) hi)) fun seals past hi => ?_
  refine Keeps.bind (h.sealPending hi) fun report past hi => ?_
  exact Keeps.bind (h.scanPolicies hi) fun report past hi => h.executeReady hi

end Tallies

/-- The runs that have returned an intent with the status. -/
def returned (status : IntentStatus) (calls : List (Event cycleSig)) : Nat :=
  (results calls).countP fun intent => intent.status = status

theorem results_concat {e : Event cycleSig} :
    results (past ++ [e]) = results past ++ (result e).toList := by
  cases h : result e <;> simp [results, h]

theorem tallies_returned : Tallies fun report past =>
    report.failed = returned .failed past ∧ report.retry = returned .ready past := by
  refine ⟨?_, fun _ h => h, ?_⟩
  · intro report past e h he
    rw [returned, returned, results_concat, he, Option.toList_none, List.append_nil]
    exact h
  · rintro report past ctx id owner intent ⟨failed, retry⟩
    simp [CycleReport.ran, returned, results_concat, result, failed, retry, List.countP_cons]

end Cycle

namespace Worker

/-- What is needed before any cycle. -/
def start (archiveRoot : Option String) (backendId : String) (maxActions pollMs : Nat) :
    Worker String := do
  if pollMs = 0 ∨ maxActions = 0 then throw (.invalid "positive poll-ms and max-actions required")
  match archiveRoot with
  | none => throw (.invalid "worker requires --archive-root")
  | some root =>
      Prog.call (.openArchive root backendId) fun x => x
      Prog.call (.cycle .token) .ok

/-- `worker --once`. -/
def runOnce (fuel : Nat) (archiveRoot : Option String) (backendId : String)
    (epoch maxActions pollMs : Nat) :
    Worker Unit := do
  let owner ← start archiveRoot backendId maxActions pollMs
  once fuel backendId epoch owner maxActions

/-- The task has been settled: it is neither left to be retried nor has it failed. -/
def Settled (intent : LifecycleIntent) : Prop := intent.status ≠ .ready ∧ intent.status ≠ .failed

def opened (root backendId owner : String) : List (Event workerSig) :=
  [⟨.openArchive root backendId, .ok ()⟩, ⟨.cycle .token, owner⟩]

/-- The options are valid and name the archive. -/
structure Accepted (archiveRoot : Option String) (maxActions pollMs : Nat)
    (root : String) : Prop where
  positive : ¬ (pollMs = 0 ∨ maxActions = 0)
  rooted : archiveRoot = some root

section

variable (fuel : Nat) (archiveRoot : Option String) (backendId : String)
  (epoch maxActions pollMs : Nat)

/-- How a worker that is run once ends. -/
inductive OnceEnds : List (Event workerSig) → HsmResult Unit → Prop
  | invalid (zero : pollMs = 0 ∨ maxActions = 0) :
      OnceEnds [] (.error (.invalid "positive poll-ms and max-actions required"))
  | rootless (positive : ¬ (pollMs = 0 ∨ maxActions = 0)) (none : archiveRoot = none) :
      OnceEnds [] (.error (.invalid "worker requires --archive-root"))
  | unopened {root : String} {e : HsmError}
      (accepted : Accepted archiveRoot maxActions pollMs root) :
      OnceEnds [⟨.openArchive root backendId, .error e⟩] (.error e)
  | failed {root owner : String} {calls : List (Event cycleSig)} {e : HsmError}
      (accepted : Accepted archiveRoot maxActions pollMs root)
      (ends : (Cycle.cycle fuel backendId epoch owner maxActions none).Ends calls (.error e)) :
      OnceEnds (opened root backendId owner ++ calls.map lifted) (.error e)
  | unprinted {root owner : String} {calls : List (Event cycleSig)}
      {report : CycleReport} {e : HsmError}
      (accepted : Accepted archiveRoot maxActions pollMs root)
      (ends : (Cycle.cycle fuel backendId epoch owner maxActions none).Ends calls (.ok report)) :
      OnceEnds
        (opened root backendId owner ++ calls.map lifted ++ [⟨.printReport report, .error e⟩])
        (.error e)
  | settled {root owner : String} {calls : List (Event cycleSig)} {report : CycleReport}
      (accepted : Accepted archiveRoot maxActions pollMs root)
      (ends : (Cycle.cycle fuel backendId epoch owner maxActions none).Ends calls (.ok report))
      (all : ∀ intent ∈ Cycle.results calls, Settled intent) :
      OnceEnds (opened root backendId owner ++ calls.map lifted ++ [⟨.printReport report, .ok ()⟩])
        (.ok ())
  | unsettled {root owner : String} {calls : List (Event cycleSig)} {report : CycleReport}
      (accepted : Accepted archiveRoot maxActions pollMs root)
      (ends : (Cycle.cycle fuel backendId epoch owner maxActions none).Ends calls (.ok report))
      (some : ∃ intent ∈ Cycle.results calls, ¬ Settled intent) :
      OnceEnds (opened root backendId owner ++ calls.map lifted ++ [⟨.printReport report, .ok ()⟩])
        (.error (.busy "tasks require reconciliation; inspect jobs"))

end

theorem settled_iff {calls : List (Event cycleSig)} :
    (∀ intent ∈ Cycle.results calls, Settled intent) ↔
    Cycle.returned .failed calls + Cycle.returned .ready calls = 0 := by
  simp only [Cycle.returned, Nat.add_eq_zero_iff, List.countP_eq_zero, decide_eq_true_eq, Settled]
  constructor
  · exact fun h => ⟨fun i hi => (h i hi).2, fun i hi => (h i hi).1⟩
  · exact fun h i hi => ⟨h.2 i hi, h.1 i hi⟩

variable {fuel : Nat} {archiveRoot : Option String} {backendId : String}
  {epoch maxActions pollMs : Nat} {root owner : String}

theorem traces_once (accepted : Accepted archiveRoot maxActions pollMs root) :
    (once fuel backendId epoch owner maxActions).run.Traces (fun _ _ => True)
      (fun r calls => OnceEnds fuel archiveRoot backendId epoch maxActions pollMs calls r)
      (opened root backendId owner) := by
  have tallies : Cycle.Keeps _ id (Cycle.cycle fuel backendId epoch owner maxActions none) [] :=
    Cycle.tallies_returned.cycle fun _ => ⟨rfl, rfl⟩
  have ends :=
    Prog.traces_of_ends (p := (Cycle.cycle fuel backendId epoch owner maxActions none).run)
    fun r calls h => h
  refine Prog.traces_run_bind.mpr
    ((traces_onCycle (tallies.and ends)).mono (fun _ _ _ => trivial) ?_)
  rintro (e | report) _ ⟨calls, rfl, counted, ended⟩
  · exact .failed accepted ended
  obtain ⟨failed, retry⟩ : report.failed = Cycle.returned .failed calls ∧
      report.retry = Cycle.returned .ready calls := counted report rfl
  refine Prog.traces_call.mpr ⟨trivial, fun x => ?_⟩
  cases x with
  | error e => exact .unprinted accepted ended
  | ok _ =>
    dsimp only
    split
    · rename_i none
      refine Prog.traces_ret.mpr (.settled accepted ended (settled_iff.mpr ?_))
      exact failed ▸ retry ▸ none
    · rename_i some
      refine Prog.traces_ret.mpr (.unsettled accepted ended ?_)
      by_contra h
      refine some ?_
      rw [failed, retry]
      exact settled_iff.mp fun i hi => by_contra fun hn => h ⟨i, hi, hn⟩

theorem traces_runOnce :
    (runOnce fuel archiveRoot backendId epoch maxActions pollMs).run.Traces (fun _ _ => True)
      (fun r calls => OnceEnds fuel archiveRoot backendId epoch maxActions pollMs calls r) [] := by
  unfold runOnce start
  rw [Prog.traces_run_bind]
  refine Prog.traces_guard.mpr ⟨.invalid, fun positive => ?_⟩
  cases archiveRoot with
  | none => exact Prog.traces_ret.mpr (.rootless positive rfl)
  | some root =>
    have accepted : Accepted (some root) maxActions pollMs root := ⟨positive, rfl⟩
    refine Prog.traces_call.mpr ⟨trivial, fun x => ?_⟩
    cases x with
    | error e => exact .unopened accepted
    | ok _ =>
      exact Prog.traces_op.mpr ⟨trivial, fun owner => Prog.traces_ret.mpr (traces_once accepted)⟩

/-- A worker that is run once succeeds exactly if its options are valid, it has opened the archive,
its one cycle has gone through and has been reported, and all tasks it has run are settled. It says
so if some are not. -/
theorem once_faithful {calls : List (Event workerSig)} {r : HsmResult Unit}
    (h : (runOnce fuel archiveRoot backendId epoch maxActions pollMs).Ends calls r) :
    OnceEnds fuel archiveRoot backendId epoch maxActions pollMs calls r :=
  traces_runOnce.ends h

def retriedCalls : List (Event cycleSig) :=
  [⟨.gcBatch, .ok 0⟩, ⟨.token, "t1"⟩, ⟨.policies ⟨"t1", 1, 1⟩ none 16, .ok ⟨[], none⟩⟩,
    ⟨.token, "t2"⟩,
    ⟨.readyIntents ⟨"t2", 1, 1⟩ none 16, .ok ⟨[Cycle.recallTask], none⟩⟩, ⟨.token, "t3"⟩,
    ⟨.runIntent ⟨"t3", 1, 1⟩ "i" "w", .ok Cycle.recallTask⟩, ⟨.print Cycle.recallTask, .ok ()⟩,
    ⟨.pendingSeals, .ok []⟩]

def retried : List (Event workerSig) :=
  opened "/a" "b" "w" ++ retriedCalls.map lifted ++ [⟨.printReport ⟨"all", 0, 1, 0, 1⟩, .ok ()⟩]

theorem retried_ends : (runOnce 1 (some "/a") "b" 1 1 1).Ends retried
    (.error (.busy "tasks require reconciliation; inspect jobs")) := by
  refine .op (x := (.ok () : HsmResult Unit)) rfl ?_
  refine .op (x := "w") rfl ?_
  refine .op (x := (.ok 0 : HsmResult Nat)) rfl ?_
  refine .op (x := "t1") rfl ?_
  refine .op (x := (.ok ⟨[], none⟩ : HsmResult (LifecyclePage LifecyclePolicy))) rfl ?_
  refine .op (x := "t2") rfl ?_
  refine .op
    (x := (.ok ⟨[Cycle.recallTask], none⟩ : HsmResult (LifecyclePage LifecycleIntent))) rfl ?_
  refine .op (x := "t3") rfl ?_
  refine .op (x := (.ok Cycle.recallTask : HsmResult LifecycleIntent)) rfl ?_
  refine .op (x := (.ok () : HsmResult Unit)) rfl ?_
  refine .op (x := (.ok [] : HsmResult (List DataKey))) rfl ?_
  refine .op (x := (.ok () : HsmResult Unit)) rfl ?_
  exact .ret _ _

theorem once_faithful_retried : OnceEnds 1 (some "/a") "b" 1 1 1 retried
    (.error (.busy "tasks require reconciliation; inspect jobs")) :=
  once_faithful retried_ends

end Worker

end HsmRs
