import HsmRs.Curvine.Garbled
import HsmRs.Curvine.Outcomes
import HsmRs.Curvine.Reference

/-! # Connecting

A client learns once what the server guarantees. Whatever it does afterwards, no request is
sent that needs a guarantee the server has not advertised.
-/

namespace HsmRs

/-- Native guarantees with those that no request needs by itself. -/
structure AdvertisedCapabilities extends CurvineCapabilities where
  distributedAuthority : Bool
  durableSuccessResults : Bool
  capacityReservation : Bool
  transparentRecall : Bool

def AdvertisedCapabilities.validate (self : AdvertisedCapabilities) : HsmResult Unit :=
  if (self.stableViews || self.privateRecall || self.conditionalRelease ||
      self.distributedAuthority || self.durableSuccessResults || self.capacityReservation ||
      self.transparentRecall) && !self.nativeRecords then
    .error (.integrity "Curvine capability requires native authority records")
  else if (self.capacityReservation || self.transparentRecall) && !self.privateRecall then
    .error (.integrity "Curvine Recall guarantees require native private Recall")
  else if self.conditionalRelease &&
      (!self.stableViews || !self.privateRecall || !self.durableSuccessResults) then
    .error (.integrity
      "Curvine Release requires stable views, private Recall and durable outcomes")
  else .ok ()

inductive ConnectReply
  | capabilities (capabilities : AdvertisedCapabilities)
  | error (code message : String)
  | other

class ConnectJson where
  capabilities : Except String Bytes
  fromSlice : Bytes → Except String ConnectReply

section

variable [ConnectJson]

def advertised (response : Bytes) : HsmResult AdvertisedCapabilities :=
  if response.length > 1024 * 1024 then
    .error (.integrity "Curvine control response exceeds limit")
  else match ConnectJson.fromSlice response with
    | .error e => .error (.integrity e)
    | .ok (.error code message) => .error (remoteError code message)
    | .ok (.capabilities capabilities) => do
        capabilities.validate
        return capabilities
    | .ok .other => .error (.integrity "expected Curvine capability reply")

/-- Negotiate native guarantees. -/
def connect : Control AdvertisedCapabilities :=
  match ConnectJson.capabilities with
  | .error e => throw (.invalid e)
  | .ok payload =>
      if payload.length > 64 * 1024 then
        throw (.invalid "Curvine control request exceeds limit")
      else ExceptT.mk (.op (.exchange payload) fun response => .ret (response.bind advertised))

/-- Any client that connects and goes on with what has been advertised, over the storage. -/
def session [ControlJson] {α : Type} (client : AdvertisedCapabilities → Prog engineSig α) :
    Control α := do
  let capabilities ← connect
  ExceptT.mk (((client capabilities).compile
    (CurvineStorage.mk capabilities.toCurvineCapabilities).answer).bind fun a => .ret (.ok a))

end

/-! ## What a request needs -/

namespace ControlRequest

/-- The guarantees a request needs. -/
def Needs (capabilities : AdvertisedCapabilities) : ControlRequest → Prop
  | inspect _ | completed _ _ _ => capabilities.nativeRecords
  | prepareArchive _ _ | commitArchive _ _ _ => capabilities.nativeRecords ∧
      capabilities.stableViews
  | release _ _ => capabilities.nativeRecords ∧ capabilities.conditionalRelease ∧
      capabilities.stableViews ∧ capabilities.privateRecall ∧ capabilities.durableSuccessResults
  | prepareRecall _ _ _ | commitRecall _ _ _ => capabilities.nativeRecords ∧
      capabilities.privateRecall

/-- The context of a request is qualified, and what it says about a state agrees with it. -/
def Sane : ControlRequest → Prop
  | inspect _ => True
  | completed ctx _ _ | prepareArchive ctx _ | commitRecall ctx _ _ => ctx.validate = .ok ()
  | commitArchive ctx view receipt => ctx.validate = .ok () ∧ receipt.data = view.data ∧
      receipt.length = view.length ∧ receipt.digest = view.digest
  | release ctx expected => ctx.validate = .ok () ∧ expected.Valid
  | prepareRecall ctx expected anchor => ctx.validate = .ok () ∧ expected.Valid ∧
      anchor.data = expected.data ∧ anchor ∈ expected.anchors

/-- The guarantees that are checked before a request is sent. -/
def Checked (capabilities : CurvineCapabilities) : ControlRequest → Prop
  | inspect _ | completed _ _ _ => capabilities.nativeRecords
  | prepareArchive _ _ => capabilities.stableViews
  | commitArchive _ _ _ => capabilities.nativeRecords ∧ capabilities.stableViews
  | release _ _ => capabilities.conditionalRelease
  | prepareRecall _ _ _ | commitRecall _ _ _ => capabilities.privateRecall

end ControlRequest

namespace AdvertisedCapabilities

variable {self : AdvertisedCapabilities}

theorem validate_eq_ok (h : self.validate = .ok ()) :
    (self.stableViews ∨ self.privateRecall ∨ self.conditionalRelease → self.nativeRecords) ∧
      (self.conditionalRelease → self.stableViews ∧ self.privateRecall ∧
        self.durableSuccessResults) := by
  unfold validate at h
  split at h
  · cases h
  split at h
  · cases h
  split at h
  · cases h
  rename_i records _ release
  constructor
  · intro some
    by_contra none
    rw [Bool.not_eq_true] at none
    refine records ?_
    rcases some with h | h | h
    all_goals simp [h, none]
  · intro h
    simpa [h, and_assoc] using release

theorem needs {request : ControlRequest} (h : self.validate = .ok ())
    (checked : request.Checked self.toCurvineCapabilities) : request.Needs self := by
  obtain ⟨records, release⟩ := validate_eq_ok h
  cases request with
  | inspect entity => exact checked
  | completed ctx data action => exact checked
  | prepareArchive ctx data => exact ⟨records (.inl checked), checked⟩
  | commitArchive ctx view receipt => exact checked
  | release ctx expected => exact ⟨records (.inr (.inr checked)), checked, release checked⟩
  | prepareRecall ctx expected anchor => exact ⟨records (.inr (.inl checked)), checked⟩
  | commitRecall ctx target evidence => exact ⟨records (.inr (.inl checked)), checked⟩

end AdvertisedCapabilities

/-! ## What is sent -/

section

variable [ControlJson]

/-- What a storage with some guarantees asks: only its own requests, checked and within the
limit. -/
def Sends (capabilities : CurvineCapabilities) : CurvineCall → Prop
  | .exchange payload => ∃ request, ControlJson.toVec request = .ok payload ∧
      payload.length ≤ 64 * 1024 ∧ request.Checked capabilities ∧ request.Sane
  | _ => True

namespace CurvineStorage

variable {self : CurvineStorage} {ctx : OperationContext} {data : DataKey}

omit [ControlJson] in
theorem require_eq_ok {supported : Bool} {feature : String} {u : Unit}
    (h : require supported feature = .ok u) : supported = true := by
  unfold require at h
  split at h
  · assumption
  · cases h

theorem sends_exchange {request : ControlRequest} (checked : request.Checked self.capabilities)
    (sane : request.Sane) : (exchange request).run.Within (Sends self.capabilities) := by
  unfold exchange
  cases ht : ControlJson.toVec request with
  | error e => trivial
  | ok payload =>
    dsimp only
    split
    · trivial
    · exact ⟨⟨request, ht, Nat.le_of_not_lt ‹_›, checked, sane⟩, fun _ => trivial⟩

theorem sends_state {request : ControlRequest} (checked : request.Checked self.capabilities)
    (sane : request.Sane) : (state request data).run.Within (Sends self.capabilities) := by
  refine Prog.within_bind (sends_exchange checked sane) fun reply => ?_
  cases reply with
  | entity s =>
    dsimp only
    split
    · exact Prog.within_check.mpr fun _ _ => trivial
    · trivial
  | _ => trivial

theorem sends_completed {action : ManagedAction} :
    (self.completed ctx data action).run.Within (Sends self.capabilities) := by
  refine Prog.within_check.mpr fun _ valid => Prog.within_check.mpr fun _ native => ?_
  refine Prog.within_bind (sends_exchange (require_eq_ok native) valid) fun reply => ?_
  cases reply with
  | completed s =>
    cases s with
    | none => trivial
    | some s =>
      dsimp only
      split
      · exact Prog.within_check.mpr fun _ _ => Prog.within_guard trivial
      · trivial
  | _ => trivial

theorem sends_inspect {entity : EntityKey} :
    (self.inspect entity).run.Within (Sends self.capabilities) := by
  refine Prog.within_check.mpr fun _ native => ?_
  refine Prog.within_bind (sends_exchange (require_eq_ok native) trivial) fun reply => ?_
  cases reply with
  | entity s =>
    dsimp only
    split
    · exact Prog.within_check.mpr fun _ _ => trivial
    · trivial
  | _ => trivial

theorem sends_prepareArchive : (self.prepareArchive ctx data).run.Within
    (Sends self.capabilities) := by
  refine Prog.within_check.mpr fun _ valid => Prog.within_check.mpr fun _ stable => ?_
  refine Prog.within_bind (sends_exchange (require_eq_ok stable) valid) fun reply => ?_
  cases reply with
  | view v =>
    dsimp only
    split <;> trivial
  | _ => trivial

theorem sends_commitArchive {view : DataView} {receipt : ArchiveReceipt} :
    (self.commitArchive ctx view receipt).run.Within (Sends self.capabilities) := by
  refine Prog.within_check.mpr fun _ valid => Prog.within_check.mpr fun _ guarantees => ?_
  refine Prog.within_guard_iff.mpr fun agrees => ?_
  rw [not_or, not_or, not_not, not_not, not_not] at agrees
  have guarantees := Bool.and_eq_true_iff.mp (require_eq_ok guarantees)
  refine Prog.within_bind (sends_state guarantees ⟨valid, agrees⟩) fun s => ?_
  exact Prog.within_guard trivial

theorem sends_release {expected : EntityState} :
    (self.release ctx expected).run.Within (Sends self.capabilities) := by
  refine Prog.within_check.mpr fun _ valid => Prog.within_check.mpr fun _ releases => ?_
  refine Prog.within_check.mpr fun _ state => ?_
  refine Prog.within_bind (sends_state (require_eq_ok releases) ⟨valid, validateState_valid state⟩)
    fun s => ?_
  exact Prog.within_guard trivial

theorem sends_prepareRecall {expected : EntityState} {anchor : ArchiveReceipt} :
    (self.prepareRecall ctx expected anchor).run.Within (Sends self.capabilities) := by
  refine Prog.within_check.mpr fun _ valid => Prog.within_check.mpr fun _ recalls => ?_
  refine Prog.within_check.mpr fun _ state => Prog.within_guard_iff.mpr fun agrees => ?_
  rw [not_or, not_not, not_not] at agrees
  refine Prog.within_bind (sends_exchange (require_eq_ok recalls)
    ⟨valid, validateState_valid state, agrees⟩) fun reply => ?_
  cases reply with
  | «recall» target =>
    dsimp only
    split <;> trivial
  | _ => trivial

theorem sends_commitRecall {target : RecallTarget} {evidence : TransferEvidence} :
    (self.commitRecall ctx target evidence).run.Within (Sends self.capabilities) := by
  refine Prog.within_check.mpr fun _ valid => Prog.within_check.mpr fun _ recalls => ?_
  refine Prog.within_bind (sends_state (require_eq_ok recalls) valid) fun s => ?_
  exact Prog.within_guard trivial

theorem sends_answer (c : Call) : (self.answer c).Within (Sends self.capabilities) := by
  cases c with
  | storage c =>
    cases c with
    | completed => exact sends_completed
    | inspect => exact sends_inspect
    | prepareArchive => exact sends_prepareArchive
    | commitArchive => exact sends_commitArchive
    | release => exact sends_release
    | prepareRecall => exact sends_prepareRecall
    | commitRecall => exact sends_commitRecall
  | backend c => exact ⟨trivial, fun _ => trivial⟩
  | copy => exact ⟨trivial, fun _ => trivial⟩

end CurvineStorage

omit [ControlJson] in
theorem advertised_eq_ok [ConnectJson] {response : Bytes} {capabilities : AdvertisedCapabilities}
    (h : advertised response = .ok capabilities) : capabilities.validate = .ok () := by
  unfold advertised at h
  split at h
  · cases h
  split at h
  · cases h
  · cases h
  · rename_i c _
    cases hv : c.validate with
    | error e =>
      rw [hv] at h
      cases h
    | ok _ =>
      rw [hv] at h
      cases h
      exact hv
  · cases h

/-- A request of a session: the first one asks for the guarantees, and every later one needs no
other than those that its reply has advertised. -/
inductive Granted [ConnectJson] (past : List (Event curvineSig)) (payload : Bytes) : Prop
  | connects (first : past = []) (encoded : ConnectJson.capabilities = .ok payload)
  | requests {first reply : Bytes} {rest : List (Event curvineSig)}
      {capabilities : AdvertisedCapabilities} {request : ControlRequest}
      (connected : past = ⟨.exchange first, .ok reply⟩ :: rest)
      (asked : ConnectJson.capabilities = .ok first)
      (told : advertised reply = .ok capabilities)
      (encoded : ControlJson.toVec request = .ok payload)
      (small : payload.length ≤ 64 * 1024) (needs : request.Needs capabilities)
      (sane : request.Sane)

theorem traces_session [ConnectJson] {α : Type}
    (client : AdvertisedCapabilities → Prog engineSig α) :
    (session client).run.Traces
      (fun past o => ∀ payload, o = CurvineCall.exchange payload → Granted past payload)
      (fun _ _ => True) [] := by
  refine Prog.traces_run_bind.mpr ?_
  unfold connect
  cases asked : ConnectJson.capabilities with
  | error e => exact Prog.traces_ret.mpr trivial
  | ok first =>
    dsimp only
    split
    · exact Prog.traces_ret.mpr trivial
    refine Prog.traces_op.mpr ⟨?_, fun x => Prog.traces_ret.mpr ?_⟩
    · rintro _ ⟨⟩
      exact .connects rfl asked
    · cases told : x.bind advertised with
      | error e => trivial
      | ok capabilities =>
        obtain ⟨reply, rfl⟩ : ∃ reply, x = .ok reply := by
          cases x with
          | error e => cases told
          | ok reply => exact ⟨reply, rfl⟩
        have sends : ∀ c, ((CurvineStorage.mk capabilities.toCurvineCapabilities).answer c).Within
            (Sends capabilities.toCurvineCapabilities) :=
          @CurvineStorage.sends_answer _ ⟨capabilities.toCurvineCapabilities⟩
        have within := (Prog.within_compile (p := client capabilities) sends).bind
          (f := fun a => .ret (.ok a : HsmResult α)) fun _ => trivial
        refine within.traces_from.mono ?_ fun _ _ _ => trivial
        rintro past o ⟨⟨rest, rfl⟩, sends⟩ payload rfl
        obtain ⟨request, encoded, small, checked, sane⟩ := sends
        exact .requests rfl asked told encoded small
          (AdvertisedCapabilities.needs (advertised_eq_ok told) checked) sane

/-- Whatever a client does after it has connected, and whatever the server answers, no request
is sent that needs a guarantee the server has not advertised or whose context is not qualified. -/
theorem requests_granted [ConnectJson] {α : Type}
    {client : AdvertisedCapabilities → Prog engineSig α}
    {past : List (Event curvineSig)} {payload : Bytes}
    (h : (session client).Makes past (.exchange payload)) : Granted past payload :=
  (traces_session client).makes h payload rfl

end

namespace Negotiated

open Reference.Json

def greeting : Bytes :=
  ("\x7b\"kind\":\"capabilities\",\"data\":\x7b\"native_records\":true,\"stable_views\":true," ++
    "\"conditional_release\":true,\"private_recall\":true,\"distributed_authority\":true," ++
    "\"durable_success_results\":true,\"capacity_reservation\":true," ++
    "\"transparent_recall\":true\x7d\x7d").toUTF8.data.toList

def everything : AdvertisedCapabilities := ⟨⟨true, true, true, true⟩, true, true, true, true⟩

def request : ControlRequest → Reference.Json
  | .inspect entity => .obj [("entity", .str entity.entity), ("op", .str "inspect")]
  | .completed ctx data _ =>
      .obj [("context", context ctx), ("data", dataKey data), ("op", .str "completed")]
  | .prepareArchive ctx data =>
      .obj [("context", context ctx), ("data", dataKey data), ("op", .str "prepare_archive")]
  | .commitArchive ctx v r =>
      .obj [("context", context ctx), ("op", .str "commit_archive"),
        ("receipt", receipt r), ("view", view v)]
  | .release ctx expected =>
      .obj [("context", context ctx), ("expected", entity expected), ("op", .str "release")]
  | .prepareRecall ctx expected anchor =>
      .obj [("anchor", receipt anchor), ("context", context ctx), ("expected", entity expected),
        ("op", .str "prepare_recall")]
  | .commitRecall ctx target e =>
      .obj [("context", context ctx), ("evidence", evidence e), ("op", .str "commit_recall"),
        ("target", «recall» target)]

scoped instance : ControlJson where
  toVec r := .ok (request r).utf8
  fromSlice _ := .error "EOF while parsing a value at line 1 column 0"

scoped instance : ConnectJson where
  capabilities := .ok (Reference.Json.obj [("op", .str "capabilities")]).utf8
  fromSlice b := if b = greeting then .ok (.capabilities everything) else .error "expected value"

def receipt : ArchiveReceipt :=
  ⟨⟨"b", "o"⟩, Reference.file 1, 0, ⟨"blake3", Reference.blake3Empty⟩, "r", "local-fsync-v1"⟩

def archived : EntityState :=
  ⟨Reference.file 1, 2, .dual, 0, ⟨"blake3", Reference.blake3Empty⟩, [receipt]⟩

def ctx : OperationContext := ⟨"release", 1, 1⟩

def client (_ : AdvertisedCapabilities) : Prog engineSig (HsmResult EntityState) :=
  Workflow.storage (.release ctx archived)

def first : Bytes := (Reference.Json.obj [("op", .str "capabilities")]).utf8

def payload : Bytes := (request (.release ctx archived)).utf8

def past : List (Event curvineSig) := [⟨.exchange first, .ok greeting⟩]

theorem greeting_advertised : advertised greeting = .ok everything := by
  have small : ¬ greeting.length > 1024 * 1024 := by decide +kernel
  have read : ConnectJson.fromSlice greeting = .ok (.capabilities everything) := if_pos rfl
  rw [advertised, if_neg small, read]
  rfl

theorem connects : Runs (adversary curvineSig) connect.run ⟨[], none⟩
    (.ok everything) ⟨past, none⟩ := by
  have small : ¬ first.length > 64 * 1024 := by decide +kernel
  unfold connect
  rw [show ConnectJson.capabilities = .ok first from rfl]
  dsimp only
  rw [if_neg small]
  refine .op (x := (.ok greeting : HsmResult Bytes)) rfl ?_
  simp only [Except.bind, greeting_advertised]
  exact .ret _ _

theorem client_makes : (session client).Makes past (.exchange payload) := by
  have small : payload.length ≤ 64 * 1024 := by decide +kernel
  have valid : validateState archived = .ok () := by decide +kernel
  refine Cuts.after_ok connects (Cuts.map (Cuts.map ?_))
  change Cuts _ ((CurvineStorage.mk everything.toCurvineCapabilities).release ctx archived).run _ _
  unfold CurvineStorage.release
  refine Cuts.after_ok (.ret _ _) (Cuts.after_ok (.ret _ _) ?_)
  rw [valid]
  refine Cuts.after_ok (.ret _ _) ?_
  unfold CurvineStorage.state
  rw [exchange_eq rfl small]
  exact .torn rfl

theorem requests_granted_release : Granted past payload := requests_granted client_makes

end Negotiated

end HsmRs
