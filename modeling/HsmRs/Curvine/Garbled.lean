import HsmRs.Curvine.Control
import HsmRs.Engine.Intent

/-! # Garbled replies

A reply that cannot be read says nothing about the effect, but the adapter answers it
with an integrity error, which `run_intent` reports as a definite failure.
-/

namespace HsmRs

open Prog

def HsmError.Integrity (e : HsmError) : Prop := ∃ m, e = .integrity m

/-- An adapter has answered an integrity error. -/
def IntentBroken (past : List (Event intentSig)) : Prop :=
  ∃ e : Event engineSig, e.Raises HsmError.Integrity ∧ HsmEngine.lifted e ∈ past

theorem report_integrity {r : HsmResult IntentCompletion} {e : HsmError} (h : r = .error e)
    (he : e.Integrity) : ∃ m, HsmEngine.report r = .failed m := by
  obtain ⟨m, rfl⟩ := he
  rw [h, HsmEngine.report_error]
  exact ⟨_, if_neg id⟩

theorem lifted_injective : Function.Injective HsmEngine.lifted := by
  rintro ⟨c, x⟩ ⟨d, y⟩ h
  cases h
  rfl

/-- After an integrity error only a failure is reported. -/
def Fails (past : List (Event intentSig)) (c : IntentCall) : Prop :=
  IntentBroken past → ∀ ctx lease report, c = .finishIntent ctx lease report →
    ∃ m, report = .failed m

theorem fails_finish {claimContext : OperationContext} {id owner : String} {lease : LifecycleIntent}
    {r : HsmResult IntentCompletion} {calls : List (Event engineSig)}
    (broken : (∃ e ∈ calls, e.Raises HsmError.Integrity) → ∃ e, r = .error e ∧ e.Integrity) :
    (HsmEngine.finish lease r).Traces Fails (fun _ _ => True)
      ([⟨.claimIntent claimContext id owner, .ok lease⟩] ++ calls.map HsmEngine.lifted) := by
  have failed : IntentBroken ([⟨.claimIntent claimContext id owner, .ok lease⟩] ++
      calls.map HsmEngine.lifted) → ∃ m, HsmEngine.report r = .failed m := by
    rintro ⟨e, he, hm⟩
    have hm : e ∈ calls := by
      rcases List.mem_append.mp hm with hm | hm
      · cases List.mem_singleton.mp hm
      · exact (List.mem_map_of_injective lifted_injective).mp hm
    obtain ⟨e, hr, he⟩ := broken ⟨e, hm, he⟩
    exact report_integrity hr he
  unfold HsmEngine.finish
  cases lease.claim with
  | none => exact traces_ret.mpr trivial
  | some claim =>
    refine traces_op.mpr ⟨fun hb _ _ _ h => ?_, fun _ => traces_ret.mpr trivial⟩
    injection h with _ _ h
    exact h ▸ failed hb

theorem fails_runIntent {claimContext : OperationContext} {id owner : String} :
    (HsmEngine.runIntent claimContext id owner).Traces Fails (fun _ _ => True) [] := by
  refine traces_op.mpr ⟨fun _ _ _ _ h => (nomatch h), ?_⟩
  rintro (e | lease)
  · exact traces_ret.mpr trivial
  dsimp only
  by_cases running : lease.status = .running
  · rw [if_neg (not_not.mpr running), traces_bind]
    have stops := (@HsmEngine.stops_work lease _ _ (passed_raises (D := HsmError.Integrity))).run
    have adapter : ∀ past c, Fails past (.adapter c) := fun _ _ _ _ _ _ h => (nomatch h)
    exact HsmEngine.traces_within [] (stops.mono (fun _ _ _ => adapter _ _)
      fun _ _ broken => fails_finish broken)
  · rw [if_pos running]
    exact traces_ret.mpr trivial

inductive RemoteCall
  | claimIntent (ctx : OperationContext) (id owner : String)
  | finishIntent (ctx : OperationContext) (lease : LifecycleIntent) (report : IntentCompletion)
  | control (c : CurvineCall)

abbrev RemoteCall.Ans : RemoteCall → Type
  | control c => c.Ans
  | _ => HsmResult LifecycleIntent

abbrev remoteSig : Sig := ⟨RemoteCall, RemoteCall.Ans⟩

def controlled (e : Event curvineSig) : Event remoteSig := ⟨.control e.op, e.answer⟩

theorem controlled_injective : Function.Injective controlled := by
  rintro ⟨c, x⟩ ⟨d, y⟩ h
  cases h
  rfl

instance (c : curvineSig.Op) : Nonempty (curvineSig.Ans c) := by
  cases c with
  | backend c => cases c <;> exact ⟨.error .fenced⟩
  | _ => exact ⟨.error .fenced⟩

def CurvineStorage.control (c : CurvineCall) : Prog remoteSig c.Ans := .op (.control c) .ret

theorem CurvineStorage.traces_control {α : Type} {p : Prog curvineSig α}
    {Q : α → List (Event curvineSig) → Prop}
    (h : p.Traces (fun _ _ => True) Q []) (past : List (Event remoteSig)) :
    (p.compile CurvineStorage.control : Prog remoteSig α).Traces
    (fun _ c => ∃ x, c = RemoteCall.control x)
      (fun a past' => ∃ calls, past' = past ++ calls.map controlled ∧ Q a calls) past := by
  refine traces_compile (R := fun calls past' => past' = past ++ calls.map controlled)
    ?_ h (by simp)
  rintro c calls _ - rfl
  exact traces_op.mpr ⟨⟨c, rfl⟩, fun x => traces_ret.mpr (by simp [controlled])⟩

section

variable [ControlJson]

/-- A reply that is over the limit or no reply of the protocol. -/
def Garbled (response : Bytes) : Prop :=
  response.length > 1024 * 1024 ∨ ∃ e, ControlJson.fromSlice response = .error e

inductive CurvineGarbled : Event curvineSig → Prop
  | reply {payload response : Bytes} : Garbled response →
      CurvineGarbled ⟨.exchange payload, .ok response⟩

inductive ServerEffect : Call → Prop
  | prepareArchive {ctx : OperationContext} {data : DataKey} :
      ServerEffect (.storage (.prepareArchive ctx data))
  | commitArchive {ctx : OperationContext} {view : DataView} {receipt : ArchiveReceipt} :
      ServerEffect (.storage (.commitArchive ctx view receipt))
  | release {ctx : OperationContext} {expected : EntityState} :
      ServerEffect (.storage (.release ctx expected))
  | prepareRecall {ctx : OperationContext} {expected : EntityState} {anchor : ArchiveReceipt} :
      ServerEffect (.storage (.prepareRecall ctx expected anchor))
  | commitRecall {ctx : OperationContext} {target : RecallTarget} {evidence : TransferEvidence} :
      ServerEffect (.storage (.commitRecall ctx target evidence))

theorem readReply_garbled {response : Bytes} (h : Garbled response) :
    ∃ m, readReply response = .error (.integrity m) := by
  unfold readReply
  split
  · exact ⟨_, rfl⟩
  · rename_i hl
    obtain ⟨e, he⟩ := h.resolve_left hl
    rw [he]
    exact ⟨e, rfl⟩

theorem stops_exchange {request : ControlRequest} :
    Stops CurvineGarbled HsmError.Integrity (exchange request) := by
  unfold exchange
  split
  · exact .throw
  · refine .ite .throw (Stops.call fun x hb => ?_)
    cases hb with
    | reply hg =>
      obtain ⟨m, hm⟩ := readReply_garbled hg
      exact ⟨_, hm, m, rfl⟩

namespace CurvineStorage

variable {self : CurvineStorage} {ctx : OperationContext} {data : DataKey}

theorem stops_state {request : ControlRequest} :
    Stops CurvineGarbled HsmError.Integrity (state request data) := by
  refine Stops.bind stops_exchange fun reply => ?_
  cases reply with
  | entity s => exact .ite (Stops.bind .check fun _ => .pure) .throw
  | _ => exact .throw

theorem stops_completed {action : ManagedAction} :
    Stops CurvineGarbled HsmError.Integrity (self.completed ctx data action) := by
  refine Stops.bind .check fun _ => Stops.bind .check fun _ =>
    Stops.bind stops_exchange fun reply => ?_
  cases reply with
  | completed o =>
    cases o with
    | none => exact .pure
    | some s => exact .ite (Stops.bind .check fun _ => .ite .throw .pure) .throw
  | _ => exact .throw

theorem stops_inspect {entity : EntityKey} :
    Stops CurvineGarbled HsmError.Integrity (self.inspect entity) := by
  refine Stops.bind .check fun _ => Stops.bind stops_exchange fun reply => ?_
  cases reply with
  | entity s => exact .ite (Stops.bind .check fun _ => .pure) .throw
  | _ => exact .throw

theorem stops_prepareArchive :
    Stops CurvineGarbled HsmError.Integrity (self.prepareArchive ctx data) := by
  refine Stops.bind .check fun _ => Stops.bind .check fun _ =>
    Stops.bind stops_exchange fun reply => ?_
  cases reply with
  | view v => exact .ite .pure .throw
  | _ => exact .throw

theorem stops_commitArchive {view : DataView} {receipt : ArchiveReceipt} :
    Stops CurvineGarbled HsmError.Integrity (self.commitArchive ctx view receipt) := by
  refine Stops.bind .check fun _ => Stops.bind .check fun _ => .ite .throw ?_
  exact Stops.bind stops_state fun _ => .ite .throw .pure

theorem stops_release {expected : EntityState} :
    Stops CurvineGarbled HsmError.Integrity (self.release ctx expected) := by
  refine Stops.bind .check fun _ => Stops.bind .check fun _ => Stops.bind .check fun _ => ?_
  exact Stops.bind stops_state fun _ => .ite .throw .pure

theorem stops_prepareRecall {expected : EntityState} {anchor : ArchiveReceipt} :
    Stops CurvineGarbled HsmError.Integrity (self.prepareRecall ctx expected anchor) := by
  refine Stops.bind .check fun _ => Stops.bind .check fun _ => Stops.bind .check
    fun _ => .ite .throw ?_
  refine Stops.bind stops_exchange fun reply => ?_
  cases reply with
  | «recall» t => exact .ite .pure .throw
  | _ => exact .throw

theorem stops_commitRecall {target : RecallTarget} {evidence : TransferEvidence} :
    Stops CurvineGarbled HsmError.Integrity (self.commitRecall ctx target evidence) := by
  refine Stops.bind .check fun _ => Stops.bind .check fun _ => ?_
  exact Stops.bind stops_state fun _ => .ite .throw .pure

/-- Every call over Curvine that gets a garbled reply is answered with an integrity error. -/
theorem traces_answer (c : Call) : (self.answer c).Traces (fun _ _ => True)
    (fun x past => (∃ e ∈ past, CurvineGarbled e) → ∃ e, c.failure x = some e ∧
      e.Integrity) [] := by
  have stopped : ∀ {α : Type} {p : Control α}, Stops CurvineGarbled HsmError.Integrity p →
      p.run.Traces (fun _ _ => True) (fun r past => (∃ e ∈ past, CurvineGarbled e) →
        ∃ e, HsmResult.failure r = some e ∧ e.Integrity) [] := fun h =>
    h.run.mono (fun _ _ h => h) fun r past hr hg => by
      obtain ⟨e, rfl, he⟩ := hr hg
      exact ⟨e, rfl, he⟩
  have other : ∀ (c : CurvineCall) {x : c.Ans}, (∀ payload, c ≠ .exchange payload) →
      ¬ ∃ e ∈ ([] ++ [⟨c, x⟩] : List (Event curvineSig)), CurvineGarbled e := by
    rintro c x hc ⟨e, he, hg⟩
    cases List.mem_singleton.mp he
    cases hg
    exact hc _ rfl
  cases c with
  | storage c =>
    cases c with
    | completed ctx data action => exact stopped stops_completed
    | inspect entity => exact stopped stops_inspect
    | prepareArchive ctx data => exact stopped stops_prepareArchive
    | commitArchive ctx view receipt => exact stopped stops_commitArchive
    | release ctx expected => exact stopped stops_release
    | prepareRecall ctx expected anchor => exact stopped stops_prepareRecall
    | commitRecall ctx target evidence => exact stopped stops_commitRecall
  | backend c =>
    exact traces_op.mpr ⟨trivial, fun x => traces_ret.mpr fun hg =>
      (other (.backend c) (fun _ h => (nomatch h)) hg).elim⟩
  | copy ctx source destination =>
    exact traces_op.mpr ⟨trivial, fun x => traces_ret.mpr fun hg =>
      (other (.copy ctx source destination) (fun _ h => (nomatch h)) hg).elim⟩

end CurvineStorage

/-! ## What is reported -/

namespace CurvineStorage

variable (self : CurvineStorage)

def serve : (c : IntentCall) → Prog remoteSig c.Ans
  | .claimIntent ctx id owner => .op (.claimIntent ctx id owner) .ret
  | .finishIntent ctx lease report => .op (.finishIntent ctx lease report) .ret
  | .adapter c => (self.answer c).compile control

def runIntent (claimContext : OperationContext) (id owner : String) :
    Prog remoteSig (HsmResult LifecycleIntent) :=
  (HsmEngine.runIntent claimContext id owner).compile self.serve

end CurvineStorage

def RemoteGarbled (past : List (Event remoteSig)) : Prop :=
  ∃ e, CurvineGarbled e ∧ controlled e ∈ past

def RemoteFails (past : List (Event remoteSig)) (c : RemoteCall) : Prop :=
  RemoteGarbled past → ∀ ctx lease report, c = .finishIntent ctx lease report →
    ∃ m, report = .failed m

namespace CurvineStorage

def Kept (past : List (Event intentSig)) (past' : List (Event remoteSig)) : Prop :=
  RemoteGarbled past' → IntentBroken past

theorem Kept.past {past : List (Event intentSig)} {past' : List (Event remoteSig)}
    {e : Event intentSig} {e' : Event remoteSig} (h : Kept past past')
    (he : ∀ x, CurvineGarbled x → controlled x ≠ e') : Kept (past ++ [e]) (past' ++ [e']) := by
  rintro ⟨x, hx, hm⟩
  rcases List.mem_append.mp hm with hm | hm
  · obtain ⟨y, hy, hm⟩ := h ⟨x, hx, hm⟩
    exact ⟨y, hy, List.mem_append_left _ hm⟩
  · exact (he x hx (List.mem_singleton.mp hm)).elim

theorem traces_serve (self : CurvineStorage) (c : IntentCall) {past : List (Event intentSig)}
    {past' : List (Event remoteSig)} (fails : Fails past c) (kept : Kept past past') :
    (self.serve c).Traces RemoteFails (fun x past' => Kept (past ++ [⟨c, x⟩]) past') past' := by
  cases c with
  | claimIntent ctx id owner =>
    refine traces_op.mpr ⟨fun _ _ _ _ h => (nomatch h), fun x => traces_ret.mpr (kept.past ?_)⟩
    rintro _ _ ⟨⟩
  | finishIntent ctx lease report =>
    refine traces_op.mpr ⟨fun hg _ _ _ h => ?_, fun x => traces_ret.mpr (kept.past ?_)⟩
    · cases h
      exact fails (kept hg) _ _ _ rfl
    · rintro _ _ ⟨⟩
  | adapter c =>
    refine (traces_control (self.traces_answer c) past').mono ?_ ?_
    · rintro _ _ ⟨x, rfl⟩ _ _ _ _ ⟨⟩
    · rintro x _ ⟨calls, rfl, answered⟩ ⟨e, he, hm⟩
      rcases List.mem_append.mp hm with hm | hm
      · obtain ⟨y, hy, hm⟩ := kept ⟨e, he, hm⟩
        exact ⟨y, hy, List.mem_append_left _ hm⟩
      · have hy := (List.mem_map_of_injective controlled_injective).mp hm
        exact ⟨⟨c, x⟩, answered ⟨e, hy, he⟩, by simp [HsmEngine.lifted]⟩

theorem traces_runIntent (self : CurvineStorage) {claimContext : OperationContext}
    {id owner : String} :
    (self.runIntent claimContext id owner).Traces RemoteFails (fun _ _ => True) [] := by
  have kept : Kept [] [] := fun ⟨_, _, h⟩ => nomatch h
  have run := traces_compile (R := Kept) (fun c _ _ fails kept => self.traces_serve c fails kept)
    (@fails_runIntent claimContext id owner) kept
  exact run.mono (fun _ _ h => h) fun _ _ _ => trivial

end CurvineStorage

/-- An effect of Curvine whose reply is garbled is never answered with an uncertain error: the
answer is an integrity error, and `run_intent` reports the work as failed. -/
theorem garbled_definite (self : CurvineStorage) :
    (∀ c past payload response, ServerEffect c → (self.answer c).Makes past (.exchange payload) →
      Garbled response →
      (∃ past x, (self.answer c).Ends past x ∧ ⟨.exchange payload, .ok response⟩ ∈ past) ∧
      ∀ past x, (self.answer c).Ends past x → ⟨.exchange payload, .ok response⟩ ∈ past →
        ∃ m, c.failure x = some (.integrity m)) ∧
    ∀ claimContext id owner past ctx lease report,
      (self.runIntent claimContext id owner).Makes past (.finishIntent ctx lease report) →
      RemoteGarbled past → ∃ m, report = .failed m := by
  constructor
  · intro c past payload response _ hm hg
    constructor
    · obtain ⟨more, x, h⟩ := hm.resume (.ok response)
      exact ⟨_, x, h, by simp⟩
    · intro past x he hp
      obtain ⟨e, hx, m, rfl⟩ := (self.traces_answer c).ends he ⟨_, hp, .reply hg⟩
      exact ⟨m, hx⟩
  · intro claimContext id owner past ctx lease report hm hg
    exact self.traces_runIntent.makes hm hg _ _ _ rfl

theorem exchange_eq {request : ControlRequest} {payload : Bytes}
    (h : ControlJson.toVec request = .ok payload) (hl : payload.length ≤ 64 * 1024) :
    exchange request = ExceptT.mk (.op (.exchange payload) fun response =>
      .ret (response.bind readReply)) := by
  unfold exchange
  rw [h]
  exact if_neg (by omega)

end

namespace Truncated

def text (ctx : OperationContext) (data : DataKey) : String :=
  "\x7b\"op\":\"prepare_archive\",\"context\":\x7b\"operation_id\":\"" ++ ctx.operationId ++
    "\",\"controller_epoch\":" ++ toString ctx.controllerEpoch ++ ",\"attempt_epoch\":" ++
    toString ctx.attemptEpoch ++ "\x7d,\"data\":\x7b\"entity\":\x7b\"storage\":\"" ++
    data.entity.storage ++ "\",\"namespace\":\"" ++ data.entity.namespace ++ "\",\"entity\":\"" ++
    data.entity.entity ++ "\"\x7d,\"generation\":" ++ toString data.generation ++ "\x7d\x7d"

scoped instance : ControlJson where
  toVec
    | .prepareArchive ctx data => .ok (text ctx data).toUTF8.data.toList
    | _ => .ok []
  fromSlice _ := .error "EOF while parsing a value at line 1 column 0"

def server : CurvineStorage := ⟨⟨true, true, true, true⟩⟩

def payload : Bytes := (text ⟨"archive", 1, 1⟩ ⟨⟨"s", "n", "e"⟩, 1⟩).toUTF8.data.toList

def view : Call := .storage (.prepareArchive ⟨"archive", 1, 1⟩ ⟨⟨"s", "n", "e"⟩, 1⟩)

/-- The view may have been pinned on the server, but the caller is told that it has not. -/
theorem view_definite : ¬ ∀ c past payload response x, ServerEffect c →
    (server.answer c).Ends past x →
    ⟨.exchange payload, .ok response⟩ ∈ past → Garbled response →
    ∃ m, c.failure x = some (.unknown m) := by
  intro claim
  have hl : payload.length ≤ 64 * 1024 := by decide +kernel
  have ends : (server.answer view).Ends [⟨.exchange payload, .ok []⟩]
      (.error (.integrity "EOF while parsing a value at line 1 column 0")) := by
    change Runs (adversary curvineSig) (server.prepareArchive _ _).run _ _ _
    unfold CurvineStorage.prepareArchive
    rw [exchange_eq rfl hl]
    exact Runs.op (show (adversary curvineSig).step _ (.exchange payload) (.ok []) _ from rfl)
      (.ret _ _)
  obtain ⟨m, hm⟩ := claim view _ payload [] _ .prepareArchive ends (by simp) (.inr ⟨_, rfl⟩)
  cases hm

end Truncated

end HsmRs
