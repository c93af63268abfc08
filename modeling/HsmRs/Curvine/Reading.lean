import HsmRs.Curvine.Reference

/-! # Reading under a pin

`read_to_local` opens a view, which pins the file on the server, and closes it after the
copy. It does so for the views it accepts, if the request to close them can be sent. A
view for other data or from an unknown adapter is refused and stays open.
-/

namespace HsmRs

open CurvineCrates Native

section

variable [CurvineCrates] {α β : Type}

/-! ## Calls -/

/-- The request is not sent, as it cannot be encoded or is too long. -/
def unsent (request : NativeRequest) : Option HsmError :=
  match toVec request with
  | .error e => some (.invalid e)
  | .ok payload =>
      if payload.length > 64 * 1024 then some (.invalid "native control request exceeds limit")
      else none

theorem nativeCall_eq {request : NativeRequest} {kind : String} {data : Json → Except String α} :
    CurvineStorage.nativeCall request kind data = match unsent request with
      | some e => throw e
      | none => Prog.call (.exchange request) (CurvineStorage.replied kind data) := by
  unfold CurvineStorage.nativeCall unsent
  cases toVec request with
  | error e => rfl
  | ok payload =>
    show (if payload.length > 64 * 1024 then _ else _ : Native α) = _
    dsimp only
    split <;> rfl

section

variable {C : List (Event nativeSig) → NativeOp → Prop} {past : List (Event nativeSig)}
  {f : α → Native β} {Q : HsmResult β → List (Event nativeSig) → Prop}

theorem traces_nativeCall {request : NativeRequest} {kind : String}
    {data : Json → Except String α} :
    (CurvineStorage.nativeCall request kind data >>= f).run.Traces C Q past ↔
      match unsent request with
      | some e => Q (.error e) past
      | none => C past (.exchange request) ∧ ∀ x, match CurvineStorage.replied kind data x with
        | .ok a => (f a).run.Traces C Q (past ++ [⟨.exchange request, x⟩])
        | .error e => Q (.error e) (past ++ [⟨.exchange request, x⟩]) := by
  rw [nativeCall_eq]
  cases unsent request with
  | some e => exact Prog.traces_ret
  | none =>
    refine Prog.traces_call.trans (and_congr_right fun _ => forall_congr' fun x => ?_)
    cases CurvineStorage.replied kind data x <;> rfl

theorem runs_nativeCall (past : List (Event nativeSig)) {request : NativeRequest} {kind : String}
    {data : Json → Except String α} {x : HsmResult Bytes} {a : α} (sent : unsent request = none)
    (answered : CurvineStorage.replied kind data x = .ok a) :
    Runs (adversary nativeSig) (CurvineStorage.nativeCall request kind data).run
      ⟨past, none⟩ (.ok a)
      ⟨past ++ [⟨.exchange request, x⟩], none⟩ := by
  rw [nativeCall_eq, sent, ← answered]
  exact .op rfl (.ret _ _)

theorem traces_caught_nativeCall {request : NativeRequest} {kind : String}
    {data : Json → Except String α} {f : HsmResult α → Native β} :
    (Prog.caught (CurvineStorage.nativeCall request kind data) >>= f).run.Traces C Q past ↔
      match unsent request with
      | some e => (f (.error e)).run.Traces C Q past
      | none => C past (.exchange request) ∧ ∀ x,
        (f (CurvineStorage.replied kind data x)).run.Traces C Q
          (past ++ [⟨.exchange request, x⟩]) := by
  rw [Prog.traces_caught, nativeCall_eq]
  cases unsent request with
  | some e => exact Prog.traces_ret
  | none =>
    refine Prog.traces_op.trans (and_congr_right fun _ => forall_congr' fun x => ?_)
    exact Prog.traces_ret

end

/-! ## What a copy does -/

/-- The operations of a transfer; it exchanges nothing on the control transport. -/
def NativeOp.Transfers : NativeOp → Prop
  | .exchange _ => False
  | _ => True

section

variable {source destination : DataEndpoint} {root : Dir} {fuel : Nat}

namespace CurvineDataMover

theorem transfers_viewBlocks : (viewBlocks source).run.Within NativeOp.Transfers := by
  unfold viewBlocks
  split
  · refine Prog.within_bind trivial fun _ =>
      Prog.within_bind (Prog.within_last.mpr trivial) fun _ => ?_
    refine Prog.within_bind trivial fun value => Prog.within_guard (Prog.within_guard trivial)
  · trivial

variable [Crates]

theorem transfers_download : (download fuel source root).run.Within NativeOp.Transfers := by
  unfold download
  split
  · refine Prog.within_bind transfers_viewBlocks fun blocks => ?_
    refine Prog.within_bind (Prog.within_last.mpr trivial) fun _ => ?_
    refine Prog.within_bind (Prog.within_last.mpr trivial) fun _ => ?_
    refine Prog.within_bind (Prog.within_last.mpr trivial) fun _ => ?_
    refine Prog.within_bind (Prog.within_loop (Prog.within_stuck trivial) fun received => ?_)
      fun _ => ?_
    · refine Prog.within_bind (Prog.within_last.mpr trivial) fun b => ?_
      cases b with
      | false => trivial
      | true =>
        refine Prog.within_bind (Prog.within_last.mpr trivial) fun bytes => Prog.within_guard ?_
        exact Prog.within_bind (Prog.within_last.mpr trivial) fun _ => trivial
    · refine Prog.within_bind (Prog.within_last.mpr trivial) fun _ => ?_
      exact Prog.within_bind (Prog.within_last.mpr trivial) fun _ => trivial
  · refine Prog.within_bind trivial fun endpoint => ?_
    refine Prog.within_bind (Prog.within_last.mpr trivial) fun _ => ?_
    refine Prog.within_bind (Prog.within_loop (Prog.within_stuck trivial) fun received => ?_)
      fun _ => ?_
    · refine Prog.within_bind (Prog.within_last.mpr trivial) fun reply => ?_
      cases reply with
      | bytes bytes =>
        dsimp only
        split
        · trivial
        · refine Prog.within_guard ?_
          exact Prog.within_bind (Prog.within_last.mpr trivial) fun _ => trivial
      | _ => trivial
    · exact Prog.within_bind (Prog.within_last.mpr trivial) fun _ => trivial

omit [Crates] in
theorem transfers_upload {expected : TransferEvidence} :
    (upload fuel destination root expected).run.Within NativeOp.Transfers := by
  refine Prog.within_bind trivial fun endpoint => ?_
  refine Prog.within_bind (Prog.within_last.mpr trivial) fun _ => ?_
  refine Prog.within_bind (Prog.within_loop (Prog.within_stuck trivial) fun offset => ?_)
    fun offset => ?_
  · refine Prog.within_bind (Prog.within_last.mpr trivial) fun bytes => ?_
    split
    · trivial
    · refine Prog.within_bind (Prog.within_last.mpr trivial) fun reply => ?_
      cases reply <;> trivial
  · have last : (verify endpoint expected).run.Within NativeOp.Transfers := by
      refine Prog.within_bind (Prog.within_last.mpr trivial) fun reply => ?_
      cases reply with
      | verified actual => exact Prog.within_bind trivial fun _ => Prog.within_guard trivial
      | _ => trivial
    dsimp only
    split
    · exact Prog.within_bind (Prog.within_last.mpr trivial) fun _ => last
    · exact last

theorem transfers_copy {ctx : OperationContext} :
    (copy fuel ctx source destination).run.Within NativeOp.Transfers := by
  refine Prog.within_bind trivial fun _ => ?_
  have endpoint : ∀ root, (payloadEndpoint root).run.Within NativeOp.Transfers := fun _ =>
    Prog.within_bind (Prog.within_last.mpr trivial) fun _ => trivial
  dsimp only
  split
  · exact Prog.within_last.mpr trivial
  split
  · refine Prog.within_bind (Prog.within_last.mpr trivial) fun root => ?_
    refine Prog.within_bind transfers_download fun expected => ?_
    refine Prog.within_bind (endpoint root) fun payload => ?_
    exact Prog.within_bind (Prog.within_last.mpr trivial) fun actual => Prog.within_guard trivial
  split
  · refine Prog.within_bind (Prog.within_last.mpr trivial) fun root => ?_
    refine Prog.within_bind (endpoint root) fun payload => ?_
    exact Prog.within_bind (Prog.within_last.mpr trivial) fun expected => transfers_upload
  · trivial

end CurvineDataMover

end

/-! ## The view is closed -/

namespace CurvineStorage

variable [Crates] {ctx : OperationContext} {data : DataKey} {destination : DataEndpoint}
  {x : HsmResult Bytes} {view : DataView}

/-- The view is closed by the last request and by no other, and what is returned as read
agrees with it. -/
def GivenBack (ctx : OperationContext) (data : DataKey) (view : DataView)
    (calls : List (Event nativeSig)) (r : HsmResult TransferEvidence) : Prop :=
  ∃ before y, calls = before ++ [⟨.exchange (.closeView ctx view), y⟩] ∧
    (∀ e ∈ before, e.op.Transfers) ∧ ∀ e, r = .ok e →
      (∃ state, replied "entity" toEntity y = .ok state) ∧ view.data = data ∧
      e.length = view.length ∧ e.digest = view.digest

omit [Crates] in
theorem not_givenBack {calls : List (Event nativeSig)} {r : HsmResult TransferEvidence}
    (h : ∀ e ∈ calls, e.op.Transfers) : ¬ GivenBack ctx data view calls r := by
  rintro ⟨before, y, rfl, -, -⟩
  exact h ⟨.exchange (.closeView ctx view), y⟩ (by simp)

theorem exists_runs_copy (fuel : Nat) (ctx : OperationContext) (source destination : DataEndpoint)
    (past : List (Event nativeSig)) :
    ∃ more r, Runs (adversary nativeSig) (CurvineDataMover.copy fuel ctx source destination).run
      ⟨past, none⟩ r ⟨past ++ more, none⟩ := by
  unfold CurvineDataMover.copy
  rw [Prog.run_bind, Prog.run_liftM, Prog.ret_bind]
  cases ctx.validate with
  | error e => exact ⟨[], .error e, by rw [List.append_nil]; exact .ret _ _⟩
  | ok _ =>
    dsimp only
    split
    · refine ⟨[⟨.localCopy ctx source destination, .error .fenced⟩], .error .fenced, ?_⟩
      exact Runs.op (x := (.error .fenced : HsmResult TransferEvidence)) rfl (.ret _ _)
    split
    · exact ⟨_, _, Runs.call_error (x := (.error .wouldBlock : Except IoError Dir)) rfl rfl⟩
    split
    · exact ⟨_, _, Runs.call_error (x := (.error .wouldBlock : Except IoError Dir)) rfl rfl⟩
    · exact ⟨[], .error (.unsupported _), by rw [List.append_nil]; exact .ret _ _⟩

/-- What a read returns, after its copy and after closing the view. -/
def settled (view : DataView) : HsmResult TransferEvidence → HsmResult EntityState →
    HsmResult TransferEvidence
  | .error e, _ => .error e
  | .ok _, .error e => .error e
  | .ok evidence, .ok _ =>
      if evidence.length ≠ view.length ∨ evidence.digest ≠ view.digest then
        .error (.integrity "native read differs from pinned content")
      else .ok evidence

omit [CurvineCrates] [Crates] in
theorem settled_eq_ok {result : HsmResult TransferEvidence} {close : HsmResult EntityState}
    {e : TransferEvidence} (h : settled view result close = .ok e) :
    (∃ state, close = .ok state) ∧ e.length = view.length ∧ e.digest = view.digest := by
  cases result with
  | error _ => cases h
  | ok evidence =>
    cases close with
    | error _ => cases h
    | ok state =>
      rw [settled] at h
      split at h
      · cases h
      · cases h
        rename_i agrees
        rw [not_or, not_not, not_not] at agrees
        exact ⟨⟨state, rfl⟩, agrees⟩

omit [Crates] in
/-- The end of a read, once its copy has come to the result. -/
theorem traces_close {C : List (Event nativeSig) → NativeOp → Prop}
    {Q : HsmResult TransferEvidence → List (Event nativeSig) → Prop} {past : List (Event nativeSig)}
    {result : HsmResult TransferEvidence} : (do
      let close ← Prog.caught (nativeCall (.closeView ctx view) "entity" toEntity)
      let evidence ← result
      let _ ← close
      if evidence.length ≠ view.length ∨ evidence.digest ≠ view.digest then
        throw (.integrity "native read differs from pinned content")
      return evidence : Native TransferEvidence).run.Traces C Q past ↔
    match unsent (.closeView ctx view) with
    | some e => Q (settled view result (.error e)) past
    | none => C past (.exchange (.closeView ctx view)) ∧ ∀ y,
        Q (settled view result (replied "entity" toEntity y))
          (past ++ [⟨.exchange (.closeView ctx view), y⟩]) := by
  have pure_end : ∀ close : HsmResult EntityState, (do
      let evidence ← result
      let _ ← close
      if evidence.length ≠ view.length ∨ evidence.digest ≠ view.digest then
        throw (.integrity "native read differs from pinned content")
      return evidence : Native TransferEvidence).run = .ret (settled view result close) := by
    intro close
    cases result with
    | error _ => rfl
    | ok evidence =>
      cases close with
      | error _ => rfl
      | ok state =>
        change (if _ then _ else _ : Native TransferEvidence).run = .ret (if _ then _ else _)
        split <;> rfl
  rw [traces_caught_nativeCall]
  cases unsent (.closeView ctx view) with
  | some e =>
    dsimp only
    rw [pure_end, Prog.traces_ret]
  | none =>
    refine and_congr_right fun _ => forall_congr' fun y => ?_
    rw [pure_end, Prog.traces_ret]

/-- Every read that gets the view gives it back, exactly if it is a view of the data from a known
adapter and the request to close it can be sent. -/
theorem view_closed_iff (hv : replied "view" toView x = .ok view) :
    (∀ fuel calls r, (readToLocal fuel ctx data destination).Ends
      (⟨.exchange (.openView ctx data), x⟩ :: calls) r → GivenBack ctx data view calls r) ↔
    (ctx.validate = .ok () → unsent (.openView ctx data) = none →
      view.data = data ∧ view.source.adapter ∈ viewAdapters ∧
      unsent (.closeView ctx view) = none) := by
  set G : HsmResult TransferEvidence → List (Event nativeSig) → Prop := fun r past =>
    ∀ calls, past = ⟨.exchange (.openView ctx data), x⟩ :: calls →
      GivenBack ctx data view calls r with hG
  have unopened : ∀ r, G r [] := fun _ _ h => (nomatch h)
  constructor
  · intro closed valid sent
    have h : (readToLocal 0 ctx data destination).run.Traces (fun _ _ => True) G [] :=
      Prog.traces_of_ends fun r past hr calls hp => closed 0 calls r (hp ▸ hr)
    rw [readToLocal, valid] at h
    have h := Prog.traces_check.mp h
    dsimp only at h
    rw [traces_nativeCall, sent] at h
    have h := h.2 x
    rw [hv] at h
    dsimp only at h
    rw [Prog.traces_guard] at h
    have accepted : ¬ (view.data ≠ data ∨ view.source.adapter ∉ viewAdapters) := fun hn =>
      not_givenBack (fun _ he => (List.not_mem_nil he).elim) (h.1 hn [] rfl)
    have h := Prog.traces_caught.mp (h.2 accepted)
    rw [not_or, not_not, not_not] at accepted
    refine ⟨accepted.1, accepted.2, ?_⟩
    obtain ⟨more, r, hr⟩ := exists_runs_copy 0 ctx view.source destination
      [⟨.exchange (.openView ctx data), x⟩]
    have h := traces_close.mp (h.runs hr)
    cases hu : unsent (.closeView ctx view) with
    | none => rfl
    | some e =>
      rw [hu] at h
      obtain ⟨_, hm, transfers⟩ := CurvineDataMover.transfers_copy.adds.runs hr
      cases List.append_cancel_left hm
      exact (not_givenBack transfers (h more rfl)).elim
  · intro accepted fuel calls r hr
    have run : (readToLocal fuel ctx data destination).run.Traces (fun _ _ => True) G [] := by
      unfold readToLocal
      refine Prog.traces_check.mpr ?_
      cases valid : ctx.validate with
      | error e => exact unopened _
      | ok _ =>
        refine traces_nativeCall.mpr ?_
        cases sent : unsent (.openView ctx data) with
        | some e => exact unopened _
        | none =>
          obtain ⟨known, adapter, sendable⟩ := accepted valid sent
          refine ⟨trivial, fun x' => ?_⟩
          by_cases hx : x' = x
          · subst hx
            rw [hv]
            refine Prog.traces_guard.mpr ⟨fun hn => ?_, fun _ => ?_⟩
            · exact (hn.elim (fun h => h known) fun h => h adapter).elim
            refine Prog.traces_caught.mpr
              (CurvineDataMover.transfers_copy.adds.mono (fun _ _ h => h) ?_)
            rintro result _ ⟨more, rfl, transfers⟩
            refine traces_close.mpr ?_
            rw [sendable]
            refine ⟨trivial, fun y calls hp => ?_⟩
            cases hp
            exact ⟨more, y, rfl, transfers, fun e he =>
              let ⟨closed, agrees⟩ := settled_eq_ok he
              ⟨closed, known, agrees⟩⟩
          · have other : ∀ r past, [⟨.exchange (.openView ctx data), x'⟩] <+: past → G r past := by
              rintro r _ ⟨more, rfl⟩ calls hp
              cases hp
              exact (hx rfl).elim
            cases replied "view" toView x' with
            | error e => exact other _ _ (List.prefix_refl _)
            | ok _ => exact Prog.traces_grow.mono (fun _ _ h => h) fun _ _ h => other _ _ h
    exact run.ends hr calls rfl

end CurvineStorage

end

namespace Reference

open CurvineStorage

def viewReply (n : Nat) : HsmResult Bytes := .ok (Json.reply "view" (.view (emptyView n))).utf8

theorem replied_view {n : Nat} (h : n = 1 ∨ n = 2) :
    replied "view" toView (viewReply n) = .ok (emptyView n) := by
  rcases h with rfl | rfl
  · decide +kernel
  · decide +kernel

theorem view_sent : unsent (.openView readContext (file 1)) = none ∧
    unsent (.closeView readContext (emptyView 1)) = none := by decide +kernel

theorem view_closed_empty : replied "view" toView (viewReply 1) = .ok (emptyView 1) ∧
    ∀ fuel calls r, (readToLocal fuel readContext (file 1) ⟨"local-managed-v1", []⟩).Ends
      (⟨.exchange (.openView readContext (file 1)), viewReply 1⟩ :: calls) r →
      GivenBack readContext (file 1) (emptyView 1) calls r := by
  refine ⟨replied_view (.inl rfl), (view_closed_iff (replied_view (.inl rfl))).mpr fun _ _ => ?_⟩
  exact ⟨rfl, by decide, view_sent.2⟩

/-- The view of another generation is refused and stays open. -/
theorem view_left_open : replied "view" toView (viewReply 2) = .ok (emptyView 2) ∧
    ¬ ∀ fuel calls r, (readToLocal fuel readContext (file 1) ⟨"local-managed-v1", []⟩).Ends
      (⟨.exchange (.openView readContext (file 1)), viewReply 2⟩ :: calls) r →
      GivenBack readContext (file 1) (emptyView 2) calls r := by
  refine ⟨replied_view (.inr rfl), fun closed => ?_⟩
  have other : (emptyView 2).data ≠ file 1 ∨
    (emptyView 2).source.adapter ∉ viewAdapters := by decide
  have ends : (readToLocal 0 readContext (file 1) ⟨"local-managed-v1", []⟩).Ends
      [⟨.exchange (.openView readContext (file 1)), viewReply 2⟩]
      (.error (.integrity "invalid exact native read view")) := by
    unfold readToLocal Prog.Ends
    refine Runs.run_bind_error.mpr (.inr ⟨(), _, .ret _ _, ?_⟩)
    have answered := runs_nativeCall [] view_sent.1 (replied_view (.inr rfl))
    refine Runs.run_bind_error.mpr (.inr ⟨emptyView 2, _, answered, ?_⟩)
    dsimp only
    rw [if_pos other]
    exact .ret _ _
  exact not_givenBack (fun _ he => (List.not_mem_nil he).elim) (closed 0 [] _ ends)

end Reference

end HsmRs
