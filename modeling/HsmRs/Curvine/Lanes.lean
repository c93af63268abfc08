import HsmRs.Curvine.Budget

/-! # The lanes of a worker

A worker that is not run once takes turns in two lanes, one for recalls and one for all other
work, until one of them stops. The source, the engine and the terminal may answer anything.
-/

namespace HsmRs

/-- What a worker asks beside its cycles. `deferred` is a line on the error stream, `spin` a loop
that goes on. -/
inductive WorkerOp
  | cycle (o : CycleOp)
  | openArchive (root backendId : String)
  | printReport (report : CycleReport)
  | deferred («class» : WorkClass) (error : HsmError)
  | sleep (ms : Nat)
  | spin

abbrev WorkerOp.Ans : WorkerOp → Type
  | cycle o => o.Ans
  | openArchive _ _ | printReport _ => HsmResult Unit
  | deferred _ _ | sleep _ => Unit
  | spin => Empty

abbrev workerSig : Sig := ⟨WorkerOp, WorkerOp.Ans⟩

abbrev Worker (α : Type) := ExceptT HsmError (Prog workerSig) α

/-- The errors that end a turn but not its lane. -/
def HsmError.Deferred : HsmError → Prop
  | .busy _ | .conflict _ | .unknown _ | .io _ => True
  | _ => False

instance : DecidablePred HsmError.Deferred
  | .busy _ | .conflict _ | .unknown _ | .io _ => isTrue trivial
  | .notFound _ | .fenced | .unsupported _ | .integrity _ | .invalid _ => isFalse id

namespace Worker

open Prog (call stuck)

variable {α : Type}

def onCycle (p : Cycle α) : Worker α := ExceptT.mk (p.run.compile fun o => .op (.cycle o) .ret)
def printReport (report : CycleReport) : Worker Unit := call (.printReport report) fun x => x
def deferred («class» : WorkClass) (error : HsmError) : Worker Unit :=
    call (.deferred «class» error) .ok
def sleep (ms : Nat) : Worker Unit := call (.sleep ms) .ok

variable (fuel : Nat) (backendId : String) (epoch : Nat) (owner : String) (maxActions pollMs : Nat)

/-- A turn of a lane, with what becomes of its result. -/
def laneRound («class» : WorkClass) : Worker (Unit ⊕ α) := do
  match ← Prog.caught (onCycle (Cycle.laneTurn fuel backendId epoch owner maxActions «class»)) with
  | .ok report => printReport report
  | .error e => if e.Deferred then deferred «class» e else throw e
  sleep pollMs
  return .inl ()

def workerLane (turns : Nat) («class» : WorkClass) : Worker α :=
  Prog.loop (stuck .spin id)
    (fun _ => laneRound fuel backendId epoch owner maxActions pollMs «class») turns ()

def once : Worker Unit := do
  let report ← onCycle (Cycle.cycle fuel backendId epoch owner maxActions none)
  printReport report
  if report.failed + report.retry = 0 then return ()
  else throw (.busy "tasks require reconciliation; inspect jobs")

end Worker

/-! ## The operations of a lane -/

namespace Cycle

def OfPass (owner : String) («class» : Option WorkClass) : CycleOp → Prop
  | .token | .print _ | .spin => True
  | .readyIntents _ _ limit => «class» = none ∧ limit = 16
  | .readyIntentsIn _ c _ limit => «class» = some c ∧ limit = 16
  | .runIntent _ _ o => o = owner
  | _ => False

/-- The operations of a cycle: those of its passes, and none that lists or runs other work. -/
def OfCycle (owner : String) («class» : Option WorkClass) : CycleOp → Prop
  | .gcBatch | .policies _ _ _ | .pendingSeals | .sealOrdinary _ | .scanScheduled _ _ _ => True
  | o => OfPass owner «class» o

/-- The operations of a lane: a cycle in the background, and nothing but passes for recalls. -/
def OfLane (owner : String) : WorkClass → CycleOp → Prop
  | .background => OfCycle owner (some .background)
  | .«recall» => OfPass owner (some .«recall»)

variable {fuel : Nat} {definitions : Definitions} {backendId : String}
  {epoch : Nat} {owner : String}
  {maxActions : Nat} {«class» : Option WorkClass} {report : CycleReport}

theorem OfPass.cycle {o : CycleOp} (h : OfPass owner «class» o) : OfCycle owner «class» o := by
  cases o with
  | readyIntents | readyIntentsIn | runIntent => exact h
  | _ => trivial

section

variable {α : Type} {P : CycleOp → Prop}

theorem within_context (token : P .token) : (context epoch).run.Within P :=
  Prog.within_bind (Prog.within_last.mpr token) fun _ => trivial

theorem within_leaving {p : Cycle α} (h : p.run.Within P) : (leaving report p).run.Within P :=
  Prog.Within.bind h fun _ => trivial

theorem within_outcome {p : Reporting α} (h : p.run.Within P) : (outcome p).run.Within P :=
  Prog.Within.bind h fun _ => trivial

end

theorem ofPass_executeItem {intent : LifecycleIntent} :
    (executeItem definitions backendId epoch owner maxActions «class» report intent).run.Within
      (OfPass owner «class») := by
  refine Prog.within_guard ?_
  split
  · trivial
  split
  · trivial
  refine Prog.within_bind (within_leaving (within_context trivial)) fun ctx => ?_
  refine Prog.within_bind (within_leaving (Prog.within_last.mpr rfl)) fun r => ?_
  split
  · refine Prog.within_bind (within_leaving (Prog.within_last.mpr trivial)) fun _ => ?_
    dsimp only
    split <;> trivial
  all_goals trivial

theorem ofPass_executeItems {items : List LifecycleIntent} :
    (executeItems definitions backendId epoch owner maxActions «class» report items).run.Within
      (OfPass owner «class») := by
  induction items generalizing report with
  | nil => trivial
  | cons intent items ih =>
    refine Prog.within_bind ofPass_executeItem fun r => ?_
    cases r with
    | inl report => exact ih
    | inr report => trivial

theorem ofPass_executeReady :
    (executeReady fuel definitions backendId epoch owner maxActions «class»
    report).run.Within (OfPass owner «class») := by
  unfold executeReady
  split
  · trivial
  refine Prog.within_loop (Prog.within_stuck trivial) fun state => ?_
  refine Prog.within_bind (within_leaving ?_) fun page =>
    Prog.within_bind ofPass_executeItems fun r => ?_
  · unfold listReady
    cases «class» with
    | none => exact Prog.within_bind (within_context trivial) fun _ =>
        Prog.within_last.mpr ⟨rfl, rfl⟩
    | some c => exact Prog.within_bind (within_context trivial) fun _ =>
        Prog.within_last.mpr ⟨rfl, rfl⟩
  · cases r with
    | inl report =>
      dsimp only
      split <;> trivial
    | inr report => trivial

theorem ofCycle_sealAll {data : List DataKey} :
    (sealAll data).run.Within (OfCycle owner «class») := by
  induction data with
  | nil => trivial
  | cons d rest ih => exact Prog.within_bind (Prog.within_last.mpr trivial) fun _ => ih

theorem ofCycle_executeReady :
    (executeReady fuel definitions backendId epoch owner maxActions «class»
    report).run.Within (OfCycle owner «class») :=
  ofPass_executeReady.mono fun _ h => h.cycle

theorem ofCycle_scanPolicies {selected : List LifecyclePolicy} :
    (scanPolicies fuel epoch selected report).run.Within (OfCycle owner «class») := by
  induction selected generalizing report with
  | nil => trivial
  | cons policy rest ih =>
    refine Prog.within_bind (Prog.within_loop (Prog.within_stuck trivial) fun state => ?_)
      fun _ => ih
    refine Prog.within_bind (within_leaving (within_context trivial)) fun ctx => ?_
    refine Prog.within_bind (within_leaving (Prog.within_last.mpr trivial)) fun batch => ?_
    refine Prog.within_bind (within_leaving ofCycle_sealAll) fun _ => ?_
    split <;> trivial

theorem ofCycle_sealPending {data : List DataKey} :
    (sealPending fuel backendId epoch owner maxActions definitions «class» data report).run.Within
      (OfCycle owner «class») := by
  induction data generalizing report with
  | nil => trivial
  | cons d rest ih =>
    refine Prog.within_bind (within_leaving (Prog.within_last.mpr trivial)) fun _ => ?_
    exact Prog.within_bind ofCycle_executeReady fun _ => ih

theorem ofCycle_definitions : (Cycle.definitions fuel epoch).run.Within
    (OfCycle owner «class») := by
  refine Prog.within_loop (Prog.within_stuck trivial) fun state => ?_
  refine Prog.within_bind (within_context trivial) fun ctx => ?_
  refine Prog.within_bind (Prog.within_last.mpr trivial) fun page => ?_
  dsimp only
  split <;> trivial

theorem ofCycle_sharedCycle :
    (sharedCycle fuel backendId epoch owner maxActions «class»).run.Within
      (OfCycle owner «class») := by
  refine Prog.within_bind (within_leaving (Prog.within_last.mpr trivial)) fun _ => ?_
  refine Prog.within_bind (within_leaving ofCycle_definitions) fun definitions => ?_
  refine Prog.within_bind ofCycle_executeReady fun _ => ?_
  refine Prog.within_bind (within_leaving (Prog.within_last.mpr trivial)) fun seals => ?_
  refine Prog.within_bind ofCycle_sealPending fun _ => ?_
  exact Prog.within_bind ofCycle_scanPolicies fun _ => ofCycle_executeReady

theorem ofLane_laneTurn {lane : WorkClass} :
    (laneTurn fuel backendId epoch owner maxActions lane).run.Within (OfLane owner lane) := by
  refine within_outcome ?_
  cases lane with
  | background => exact ofCycle_sharedCycle
  | «recall» => exact ofPass_executeReady

end Cycle

/-! ## Turns -/

namespace Worker

open HsmRs.Cycle

def lifted (e : Event cycleSig) : Event workerSig := ⟨.cycle e.op, e.answer⟩

/-- The lane has just slept, or has not done anything. -/
def Rested (past : List (Event workerSig)) : Prop :=
  past = [] ∨ ∃ before ms, past = before ++ [⟨.sleep ms, ()⟩]

def Since (past : List (Event workerSig)) (calls : List (Event cycleSig)) : Prop :=
  ∃ before, Rested before ∧ past = before ++ calls.map lifted

section

variable (fuel : Nat) (backendId : String) (epoch : Nat) (owner : String) (maxActions pollMs : Nat)
  (lane : WorkClass)

/-- The turn since the lane slept last has been reported, or deferred with its error. -/
inductive Told : List (Event workerSig) → Prop
  | reported {past : List (Event workerSig)} {calls : List (Event cycleSig)} {report : CycleReport}
      (since : Since past calls)
      (ends : (laneTurn fuel backendId epoch owner maxActions lane).Ends calls (.ok report)) :
      Told (past ++ [⟨.printReport report, .ok ()⟩])
  | deferred {past : List (Event workerSig)} {calls : List (Event cycleSig)} {e : HsmError}
      (since : Since past calls) (transient : e.Deferred)
      (ends : (laneTurn fuel backendId epoch owner maxActions lane).Ends calls (.error e)) :
      Told (past ++ [⟨.deferred lane e, ()⟩])

/-- What a lane asks: the operations of its class under its own name, as its turns do, and what
it tells about each of them before it sleeps. -/
def LaneAsks (past : List (Event workerSig)) : WorkerOp → Prop
  | .cycle o => OfLane owner lane o ∧
      ∃ calls, Since past calls ∧ Allowed [] backendId epoch maxActions 0 (some lane) calls o
  | .printReport report => ∃ calls, Since past calls ∧
      (laneTurn fuel backendId epoch owner maxActions lane).Ends calls (.ok report)
  | .deferred «class» e => «class» = lane ∧ e.Deferred ∧ ∃ calls, Since past calls ∧
      (laneTurn fuel backendId epoch owner maxActions lane).Ends calls (.error e)
  | .sleep ms => ms = pollMs ∧ Told fuel backendId epoch owner maxActions lane past
  | .openArchive _ _ => False
  | .spin => Rested past

/-- How a lane ends: with the error of its last turn, which is not one of those that are deferred,
or as its report could not be printed. -/
inductive LaneEnds {α : Type} : List (Event workerSig) → HsmResult α → Prop
  | turn {past : List (Event workerSig)} {calls : List (Event cycleSig)} {e : HsmError}
      (definite : ¬ e.Deferred) (since : Since past calls)
      (ends : (laneTurn fuel backendId epoch owner maxActions lane).Ends calls (.error e)) :
      LaneEnds past (.error e)
  | report {past : List (Event workerSig)} {calls : List (Event cycleSig)} {report : CycleReport}
      {e : HsmError} (since : Since past calls)
      (ends : (laneTurn fuel backendId epoch owner maxActions lane).Ends calls (.ok report)) :
      LaneEnds (past ++ [⟨.printReport report, .error e⟩]) (.error e)

end

variable {fuel : Nat} {backendId : String} {epoch : Nat} {owner : String} {maxActions pollMs : Nat}
  {lane : WorkClass} {α β : Type} {past : List (Event workerSig)}

theorem traces_onCycle {C : List (Event cycleSig) → CycleOp → Prop}
    {Q : HsmResult α → List (Event cycleSig) → Prop} {p : Cycle α} (h : p.run.Traces C Q []) :
    (onCycle p).run.Traces
      (fun past' o => ∃ c calls, o = WorkerOp.cycle c ∧
        past' = past ++ calls.map lifted ∧ C calls c)
      (fun r past' => ∃ calls, past' = past ++ calls.map lifted ∧ Q r calls) past := by
  refine Prog.traces_compile (R := fun calls past' => past' = past ++ calls.map lifted)
    ?_ h (by simp)
  rintro c calls _ hc rfl
  refine Prog.traces_op.mpr ⟨⟨c, calls, rfl, rfl, hc⟩, fun x => Prog.traces_ret.mpr ?_⟩
  rw [List.map_append, List.append_assoc]
  rfl

theorem traces_turn : (laneTurn fuel backendId epoch owner maxActions lane).run.Traces
    (fun calls o => OfLane owner lane o ∧ Allowed [] backendId epoch maxActions 0
      (some lane) calls o)
    (fun r calls => (laneTurn fuel backendId epoch owner maxActions lane).Ends calls r) [] := by
  have ends := Prog.traces_of_ends (p := (laneTurn fuel backendId epoch owner maxActions lane).run)
    fun r calls h => h
  refine ((ofLane_laneTurn.traces.and traces_laneTurn).and ends).mono ?_ ?_
  · exact fun _ _ h => h.1
  · exact fun _ _ h => h.2

theorem traces_laneRound (h : Rested past) :
    (laneRound (α := α) fuel backendId epoch owner maxActions pollMs lane).run.Traces
      (LaneAsks fuel backendId epoch owner maxActions pollMs lane) (fun r past' => match r with
        | .ok (.inl _) => Rested past'
        | .ok (.inr a) => LaneEnds fuel backendId epoch owner maxActions lane past' (.ok a)
        | .error e => LaneEnds fuel backendId epoch owner maxActions lane past'
            (.error e : HsmResult α))
      past := by
  refine Prog.traces_caught.mpr ((traces_onCycle traces_turn).mono ?_ ?_)
  · rintro past' o ⟨c, calls, rfl, hp, own, allowed⟩
    exact ⟨own, calls, ⟨past, h, hp⟩, allowed⟩
  · rintro r past' ⟨calls, hp, ended⟩
    have since : Since past' calls := ⟨past, h, hp⟩
    have slept : ∀ before, Told fuel backendId epoch owner maxActions lane before →
        (do sleep pollMs; return .inl () : Worker (Unit ⊕ α)).run.Traces
          (LaneAsks fuel backendId epoch owner maxActions pollMs lane) (fun r past' => match r with
            | .ok (.inl _) => Rested past'
            | .ok (.inr a) => LaneEnds fuel backendId epoch owner maxActions lane past' (.ok a)
            | .error e => LaneEnds fuel backendId epoch owner maxActions lane past'
                (.error e : HsmResult α)) before := fun before told =>
      Prog.traces_call.mpr ⟨⟨rfl, told⟩, fun _ => Prog.traces_ret.mpr (.inr ⟨before, pollMs, rfl⟩)⟩
    cases r with
    | ok report =>
      refine Prog.traces_call.mpr ⟨⟨calls, since, ended⟩, fun x => ?_⟩
      cases x with
      | error e => exact .report since ended
      | ok _ => exact slept _ (.reported since ended)
    | error e =>
      dsimp only
      split
      · rename_i transient
        exact Prog.traces_call.mpr ⟨⟨rfl, transient, calls, since, ended⟩, fun _ =>
          slept _ (.deferred since transient ended)⟩
      · rename_i definite
        exact Prog.traces_ret.mpr (.turn definite since ended)

theorem traces_workerLane {turns : Nat} :
    (workerLane (α := α) fuel backendId epoch owner maxActions pollMs turns lane).run.Traces
      (LaneAsks fuel backendId epoch owner maxActions pollMs lane)
      (fun r calls => LaneEnds fuel backendId epoch owner maxActions lane calls r) [] := by
  refine Prog.traces_loop (I := fun _ _ past => Rested past) ?_ ?_ (.inl rfl)
  · exact fun _ past h => Prog.traces_op.mpr ⟨h, nofun⟩
  · intro _ _ past h
    refine (traces_laneRound h).mono (fun _ _ h => h) ?_
    rintro (e | _ | a) past h
    all_goals exact h

section

variable (joint : List (WorkClass × Event workerSig))

/-- What a lane has done of what both have done together. -/
def part (lane : WorkClass) : List (Event workerSig) :=
  joint.filterMap fun e => if e.1 = lane then some e.2 else none

def shown : Event workerSig → List LifecycleIntent
  | ⟨.cycle o, x⟩ => (listed ⟨o, x⟩).getD []
  | _ => []

/-- The source has listed the work to one of the lanes. -/
def Shown (intent : LifecycleIntent) : Prop := ∃ e ∈ joint, intent ∈ shown e.2

def HasRun (lane : WorkClass) (id owner : String) : Prop :=
  ∃ ctx x, (lane, ⟨.cycle (.runIntent ctx id owner), x⟩) ∈ joint

end

def laneOwner (owner : String) : WorkClass → String
  | .background => owner
  | .«recall» => owner ++ "-recall"

theorem mem_listings {calls : List (Event cycleSig)} {items : List LifecycleIntent}
    (h : items ∈ listings calls) : ∃ e ∈ calls, listed e = some items := by
  simpa [listings] using h

/-- What a lane runs has been listed to it, as work of its class. -/
theorem ran_listed {joint : List (WorkClass × Event workerSig)} {turns : Nat} {id owner' : String}
    (h : (workerLane (α := Empty) fuel backendId epoch owner maxActions pollMs turns lane).Reaches
      (part joint lane)) (hr : HasRun joint lane id owner') :
    owner' = owner ∧ ∃ intent, Shown joint intent ∧ intent.id = id ∧
      ((∃ key, intent.action = .«recall» key) ↔ lane = .«recall») := by
  obtain ⟨ctx, x, hm⟩ := hr
  have mem : ⟨.cycle (.runIntent ctx id owner'), x⟩ ∈ part joint lane :=
    List.mem_filterMap.mpr ⟨_, hm, if_pos rfl⟩
  obtain ⟨before, after, hp⟩ := List.append_of_mem mem
  obtain ⟨own, calls, ⟨slept, -, hs⟩, -, allowed⟩ := traces_workerLane.reaches h before _ after hp
  obtain ⟨-, earlier, intent, later, last, hi, -, -, accepted⟩ := allowed ctx id owner' rfl
  have lane_owner : owner' = owner := by
    cases lane with
    | background => exact own
    | «recall» => exact own
  refine ⟨lane_owner, intent, ?_, hi, accepted intent (by simp) lane rfl⟩
  obtain ⟨⟨o, y⟩, he, hl⟩ := mem_listings (List.mem_of_getLast? last)
  have told : (⟨.cycle o, y⟩ : Event workerSig) ∈ part joint lane := by
    rw [hp, hs]
    exact List.mem_append_left _ (List.mem_append_right _ (List.mem_map.mpr ⟨_, he, rfl⟩))
  obtain ⟨⟨lane', e⟩, hj, hf⟩ := List.mem_filterMap.mp told
  split at hf
  · rename_i same
    cases hf
    refine ⟨_, hj, ?_⟩
    simp [shown, hl]
  · cases hf

/-- The lanes of a worker never run the same intent, however their turns are interleaved, as long
as the source does not list an intent with two actions. -/
theorem lanes_apart {joint : List (WorkClass × Event workerSig)} {turns : WorkClass → Nat}
    (reached : ∀ lane,
      (workerLane (α := Empty) fuel backendId epoch (laneOwner owner lane) maxActions
      pollMs (turns lane) lane).Reaches (part joint lane))
    (same : ∀ i j, Shown joint i → Shown joint j → i.id = j.id → i.action = j.action)
    {lane lane' : WorkClass} {id owner₁ owner₂ : String} (h : HasRun joint lane id owner₁)
    (h' : HasRun joint lane' id owner₂) : lane = lane' ∧ owner₁ = owner₂ := by
  obtain ⟨rfl, intent, hl, hi, kind⟩ := ran_listed (reached lane) h
  obtain ⟨rfl, intent', hl', hi', kind'⟩ := ran_listed (reached lane') h'
  rw [same _ _ hl hl' (hi.trans hi'.symm)] at kind
  have lanes : lane = lane' := by
    have both := kind.symm.trans kind'
    cases lane <;> cases lane' <;> simp_all
  exact ⟨lanes, congrArg _ lanes⟩

def recallCalls : List (Event cycleSig) :=
  [⟨.token, "t1"⟩, ⟨.readyIntentsIn ⟨"t1", 1, 1⟩ .«recall» none 16, .ok ⟨[recallTask], none⟩⟩,
    ⟨.token, "t2"⟩, ⟨.runIntent ⟨"t2", 1, 1⟩ "i" "w-recall", .ok recallTask⟩]

def backgroundCalls : List (Event cycleSig) :=
  [⟨.gcBatch, .ok 0⟩, ⟨.token, "b1"⟩, ⟨.policies ⟨"b1", 1, 1⟩ none 16, .ok ⟨[], none⟩⟩,
    ⟨.token, "b2"⟩, ⟨.readyIntentsIn ⟨"b2", 1, 1⟩ .background none 16, .ok ⟨[archiveTask], none⟩⟩,
    ⟨.token, "b3"⟩, ⟨.runIntent ⟨"b3", 1, 1⟩ "j" "w", .ok archiveTask⟩]

def bothCalls : List (WorkClass × Event workerSig) :=
  (backgroundCalls.take 3).map (fun e => (.background, lifted e)) ++
    recallCalls.map (fun e => (.«recall», lifted e)) ++
    (backgroundCalls.drop 3).map fun e => (.background, lifted e)

theorem both_reached (lane : WorkClass) :
    (workerLane (α := Empty) 1 "b" 1 (laneOwner "w" lane) 1 1 1
    lane).Reaches (part bothCalls lane) := by
  cases lane with
  | «recall» =>
    refine .later (x := "t1") rfl ?_
    refine .later
      (x := (.ok ⟨[recallTask], none⟩ : HsmResult (LifecyclePage LifecycleIntent))) rfl ?_
    refine .later (x := "t2") rfl ?_
    refine .later (x := (.ok recallTask : HsmResult LifecycleIntent)) rfl ?_
    exact .here _ _
  | background =>
    refine .later (x := (.ok 0 : HsmResult Nat)) rfl ?_
    refine .later (x := "b1") rfl ?_
    refine .later (x := (.ok ⟨[], none⟩ : HsmResult (LifecyclePage LifecyclePolicy))) rfl ?_
    refine .later (x := "b2") rfl ?_
    refine .later
      (x := (.ok ⟨[archiveTask], none⟩ : HsmResult (LifecyclePage LifecycleIntent))) rfl ?_
    refine .later (x := "b3") rfl ?_
    refine .later (x := (.ok archiveTask : HsmResult LifecycleIntent)) rfl ?_
    exact .here _ _

theorem both_listed {i : LifecycleIntent} (h : Shown bothCalls i) : i = recallTask ∨
    i = archiveTask := by
  have all : bothCalls.flatMap (fun e => shown e.2) = [recallTask, archiveTask] := rfl
  have hm : i ∈ bothCalls.flatMap fun e => shown e.2 := List.mem_flatMap.mpr h
  rw [all] at hm
  simpa using hm

theorem lanes_apart_both : HasRun bothCalls .«recall» "i" "w-recall" ∧
    HasRun bothCalls .background "j" "w" ∧
    ∀ owner, ¬ HasRun bothCalls .background "i" owner := by
  have ran : HasRun bothCalls .«recall» "i" "w-recall" := ⟨⟨"t2", 1, 1⟩, .ok recallTask, by
    simp [bothCalls, recallCalls, lifted]⟩
  refine ⟨ran, ⟨⟨"b3", 1, 1⟩, .ok archiveTask, by simp [bothCalls, backgroundCalls, lifted]⟩, ?_⟩
  intro owner h
  have same : ∀ i j, Shown bothCalls i → Shown bothCalls j → i.id = j.id → i.action = j.action := by
    intro i j hi hj ids
    rcases both_listed hi with rfl | rfl <;> rcases both_listed hj with rfl | rfl
    all_goals first | rfl | exact absurd ids (by decide)
  cases (lanes_apart both_reached same ran h).1

end Worker

end HsmRs
