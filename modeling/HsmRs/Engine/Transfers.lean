import HsmRs.Engine.Release

/-! # What the engine attaches and publishes

The calls of `archive` and `recall` against adapters that may answer anything. A
receipt is attached once, as the backend asserted it for the pinned view, and a
private layout is published once, with the content that was expected.
-/

namespace HsmRs.HsmEngine

variable {past : List (Event engineSig)}

/-- The backend has asserted this receipt for the key. -/
inductive Asserted (ctx : OperationContext) (key : ArchiveKey) (view : DataView)
    (past : List (Event engineSig)) (receipt : ArchiveReceipt) : Prop where
  | inspected : ⟨.backend (.inspect key), .ok (.committed receipt)⟩ ∈ past →
      Asserted ctx key view past receipt
  | resumed {target : ArchiveTarget} :
      ⟨.backend (.resumeCommit ctx target view), .ok (some receipt)⟩ ∈ past →
      Asserted ctx key view past receipt
  | committed {target : ArchiveTarget} {evidence : TransferEvidence} :
      ⟨.backend (.commit ctx target view evidence), .ok receipt⟩ ∈ past →
      Asserted ctx key view past receipt

/-- A private target of an archive that the backend does not have. -/
structure Targeted (ctx : OperationContext) (data : DataKey) (key : ArchiveKey) (view : DataView)
    (target : ArchiveTarget) (past : List (Event engineSig)) : Prop where
  pinned : ⟨.storage (.prepareArchive ctx data), .ok view⟩ ∈ past
  absent : ⟨.backend (.inspect key), .ok .absent⟩ ∈ past
  prepared : ⟨.backend (.prepare ctx key view), .ok target⟩ ∈ past

def Attached (past : List (Event engineSig)) : Prop :=
  ∃ ctx view receipt x, ⟨.storage (.commitArchive ctx view receipt), x⟩ ∈ past

/-- What `archive` does, and after what. -/
inductive Archives (ctx : OperationContext) (data : DataKey) (key : ArchiveKey)
    (past : List (Event engineSig)) : Call → Prop where
  | completed : Archives ctx data key past (.storage (.completed ctx data (.archive key)))
  | prepareArchive : Archives ctx data key past (.storage (.prepareArchive ctx data))
  | inspect : Archives ctx data key past (.backend (.inspect key))
  | prepare {view : DataView} : ⟨.storage (.prepareArchive ctx data), .ok view⟩ ∈ past →
      ⟨.backend (.inspect key), .ok .absent⟩ ∈ past →
      Archives ctx data key past (.backend (.prepare ctx key view))
  | resumeCommit {view : DataView} {target : ArchiveTarget} :
      Targeted ctx data key view target past →
      Archives ctx data key past (.backend (.resumeCommit ctx target view))
  | copy {view : DataView} {target : ArchiveTarget} : Targeted ctx data key view target past →
      Archives ctx data key past (.copy ctx view.source target.destination)
  | commit {view : DataView} {target : ArchiveTarget} {evidence : TransferEvidence} :
      Targeted ctx data key view target past →
      ⟨.copy ctx view.source target.destination, .ok evidence⟩ ∈ past →
      evidence.length = view.length → evidence.digest = view.digest →
      Archives ctx data key past (.backend (.commit ctx target view evidence))
  | commitArchive {view : DataView} {receipt : ArchiveReceipt} :
      ⟨.storage (.prepareArchive ctx data), .ok view⟩ ∈ past →
      Asserted ctx key view past receipt →
      receipt.Attests data key view.length view.digest → ¬ Attached past →
      Archives ctx data key past (.storage (.commitArchive ctx view receipt))

section

variable {ctx : OperationContext} {data : DataKey} {key : ArchiveKey} {view : DataView}

theorem traces_attach {receipt : ArchiveReceipt}
    (pinned : ⟨.storage (.prepareArchive ctx data), .ok view⟩ ∈ past)
    (asserted : Asserted ctx key view past receipt) (first : ¬ Attached past) :
    (attach ctx data key view receipt).run.Traces (Archives ctx data key)
      (fun _ _ => True) past := by
  unfold attach
  rw [Prog.traces_check]
  cases hb : checkReceipt receipt data key view.length view.digest with
  | error e => trivial
  | ok =>
    exact Prog.traces_op.mpr ⟨.commitArchive pinned asserted (checkReceipt_eq_ok.mp hb) first,
      fun _ => Prog.traces_ret.mpr trivial⟩

/-- `upload` ends with a receipt that the backend has asserted. -/
theorem traces_upload (pinned : ⟨.storage (.prepareArchive ctx data), .ok view⟩ ∈ past)
    (absent : ⟨.backend (.inspect key), .ok .absent⟩ ∈ past) (first : ¬ Attached past) :
    (upload ctx key view).run.Traces (Archives ctx data key)
      (fun r past' => ∀ receipt, r = .ok receipt →
      ⟨.storage (.prepareArchive ctx data), .ok view⟩ ∈ past' ∧
      Asserted ctx key view past' receipt ∧ ¬ Attached past') past := by
  have onward : ∀ {e : Event engineSig}, (∀ c v r x, e ≠ ⟨.storage (.commitArchive c v r), x⟩) →
      ∀ {past'}, ¬ Attached past' → ¬ Attached (past' ++ [e]) := by
    rintro e he past' hn ⟨c, v, r, x, hm⟩
    rcases List.mem_append.mp hm with hm | hm
    · exact hn ⟨c, v, r, x, hm⟩
    · exact he c v r x (List.mem_singleton.mp hm).symm
  have later : ∀ {e e' : Event engineSig} {past'}, e' ∈ past' → e' ∈ past' ++ [e] :=
    List.mem_append_left _
  have last : ∀ {e : Event engineSig} {past'}, e ∈ past' ++ [e] := by simp
  unfold upload
  refine Prog.traces_call.mpr ⟨.prepare pinned absent, ?_⟩
  rintro (e | target)
  · exact nofun
  have targeted : Targeted ctx data key view target
      (past ++ [⟨.backend (.prepare ctx key view), .ok target⟩]) :=
    ⟨later pinned, later absent, last⟩
  have first₁ := onward (e := ⟨.backend (.prepare ctx key view), .ok target⟩) nofun first
  refine Prog.traces_call.mpr ⟨.resumeCommit targeted, ?_⟩
  rintro (e | r)
  · exact nofun
  have first₂ := onward (e := ⟨.backend (.resumeCommit ctx target view), .ok r⟩) nofun first₁
  cases r with
  | some receipt =>
    refine Prog.traces_ret.mpr ?_
    rintro _ ⟨⟩
    exact ⟨later targeted.pinned, .resumed last, first₂⟩
  | none =>
  have targeted₂ : Targeted ctx data key view target (past ++
      [⟨.backend (.prepare ctx key view), .ok target⟩] ++
      [⟨.backend (.resumeCommit ctx target view), .ok none⟩]) :=
    ⟨later targeted.pinned, later targeted.absent, later targeted.prepared⟩
  refine Prog.traces_call.mpr ⟨.copy targeted₂, ?_⟩
  rintro (e | evidence)
  · exact nofun
  refine Prog.traces_guard.mpr ⟨fun _ => nofun, fun he => ?_⟩
  rw [not_or, not_not, not_not] at he
  have first₃ := onward (e := ⟨.copy ctx view.source target.destination, .ok evidence⟩) nofun first₂
  refine Prog.traces_op.mpr ⟨.commit ⟨later targeted₂.pinned, later targeted₂.absent,
    later targeted₂.prepared⟩ last he.1 he.2, fun x => Prog.traces_ret.mpr ?_⟩
  rintro receipt rfl
  exact ⟨later (later targeted₂.pinned), .committed last,
    onward (e := ⟨.backend (.commit ctx target view evidence), .ok receipt⟩) nofun first₃⟩

theorem traces_archive :
    (archive ctx data key).run.Traces (Archives ctx data key) (fun _ _ => True) [] := by
  unfold archive
  rw [Prog.traces_check]
  cases ctx.validate with
  | error e => trivial
  | ok =>
  refine Prog.traces_call.mpr ⟨.completed, ?_⟩
  rintro (e | _ | result)
  · trivial
  · refine Prog.traces_call.mpr ⟨.prepareArchive, ?_⟩
    rintro (e | view)
    · trivial
    refine Prog.traces_call.mpr ⟨.inspect, ?_⟩
    rintro (e | _ | _ | receipt | _)
    · trivial
    · dsimp only
      rw [Prog.traces_run_bind]
      refine (traces_upload (by simp) (by simp) ?_).mono (fun _ _ h => h) ?_
      · rintro ⟨c, v, r, x, hm⟩
        simp at hm
      · rintro (e | receipt) past h
        · trivial
        · obtain ⟨pinned, asserted, first⟩ := h receipt rfl
          exact traces_attach pinned asserted first
    · exact Prog.traces_ret.mpr trivial
    · refine traces_attach (by simp) (.inspected (by simp)) ?_
      rintro ⟨c, v, r, x, hm⟩
      simp at hm
    · exact Prog.traces_ret.mpr trivial
  · exact Prog.traces_ret.mpr trivial

end

/-! ## Recall -/

structure Confirmed (ctx : OperationContext) (expected : EntityState) (key : ArchiveKey)
    (anchor : ArchiveReceipt) (past : List (Event engineSig)) : Prop where
  offline : expected.residency = .offline
  anchored : anchor ∈ expected.anchors
  key_eq : anchor.key = key
  confirmed : past = [⟨.storage (.completed ctx expected.data (.«recall» key)), .ok none⟩,
    ⟨.backend (.inspect key), .ok (.committed anchor)⟩]

/-- A private layout for the selected anchor, and the payload of that anchor. -/
structure Allocated (ctx : OperationContext) (expected : EntityState) (key : ArchiveKey)
    (source : DataEndpoint) (target : RecallTarget) (past : List (Event engineSig)) : Prop where
  anchor : ∃ anchor past', Confirmed ctx expected key anchor past' ∧
    past = past' ++ [⟨.storage (.prepareRecall ctx expected anchor), .ok target⟩,
      ⟨.backend (.open anchor), .ok source⟩]

def Published (past : List (Event engineSig)) : Prop :=
  ∃ ctx target evidence x, ⟨.storage (.commitRecall ctx target evidence), x⟩ ∈ past

/-- What `recall` does, and after what. -/
inductive Recalls (ctx : OperationContext) (expected : EntityState) (key : ArchiveKey)
    (past : List (Event engineSig)) : Call → Prop where
  | completed : Recalls ctx expected key past
      (.storage (.completed ctx expected.data (.«recall» key)))
  | inspect : Recalls ctx expected key past (.backend (.inspect key))
  | prepareRecall {anchor : ArchiveReceipt} : Confirmed ctx expected key anchor past →
      Recalls ctx expected key past (.storage (.prepareRecall ctx expected anchor))
  | «open» {anchor : ArchiveReceipt} {target : RecallTarget} {past' : List (Event engineSig)} :
      Confirmed ctx expected key anchor past' →
      past = past' ++ [⟨.storage (.prepareRecall ctx expected anchor), .ok target⟩] →
      Recalls ctx expected key past (.backend (.open anchor))
  | copy {source : DataEndpoint} {target : RecallTarget} :
      Allocated ctx expected key source target past →
      Recalls ctx expected key past (.copy ctx source target.destination)
  | commitRecall {source : DataEndpoint} {target : RecallTarget} {evidence : TransferEvidence}
      {past' : List (Event engineSig)} : Allocated ctx expected key source target past' →
      past = past' ++ [⟨.copy ctx source target.destination, .ok evidence⟩] →
      evidence.length = expected.length → evidence.digest = expected.digest → ¬ Published past →
      Recalls ctx expected key past (.storage (.commitRecall ctx target evidence))

theorem traces_recall {ctx : OperationContext} {expected : EntityState} {key : ArchiveKey} :
    («recall» ctx expected key).run.Traces (Recalls ctx expected key) (fun _ _ => True) [] := by
  unfold «recall»
  rw [Prog.traces_check]
  cases ctx.validate with
  | error e => trivial
  | ok =>
  refine Prog.traces_call.mpr ⟨.completed, ?_⟩
  rintro (e | _ | result)
  · trivial
  · refine Prog.traces_guard.mpr ⟨fun _ => trivial, fun offline => ?_⟩
    rw [not_not] at offline
    cases hf : expected.anchors.find? (fun a => a.key = key) with
    | none => exact Prog.traces_ret.mpr trivial
    | some anchor =>
    have key_eq : anchor.key = key := by simpa using List.find?_some hf
    dsimp only
    rw [Prog.traces_check]
    cases checkReceipt anchor expected.data key expected.length expected.digest with
    | error e => trivial
    | ok =>
    refine Prog.traces_call.mpr ⟨.inspect, ?_⟩
    rintro (e | _ | _ | actual | _)
    · trivial
    · exact Prog.traces_ret.mpr trivial
    · exact Prog.traces_ret.mpr trivial
    · dsimp only
      refine Prog.traces_guard.mpr ⟨fun _ => trivial, fun same => ?_⟩
      rw [not_not] at same
      subst same
      have confirmed : Confirmed ctx expected key actual
          ([] ++ [⟨.storage (.completed ctx expected.data (.«recall» key)), .ok none⟩] ++
            [⟨.backend (.inspect key), .ok (.committed actual)⟩]) :=
        ⟨offline, List.mem_of_find?_eq_some hf, key_eq, rfl⟩
      refine Prog.traces_call.mpr ⟨.prepareRecall confirmed, ?_⟩
      rintro (e | target)
      · trivial
      refine Prog.traces_call.mpr ⟨.open confirmed rfl, ?_⟩
      rintro (e | source)
      · trivial
      have allocated : Allocated ctx expected key source target
          ([] ++ [⟨.storage (.completed ctx expected.data (.«recall» key)), .ok none⟩] ++
            [⟨.backend (.inspect key), .ok (.committed actual)⟩] ++
            [⟨.storage (.prepareRecall ctx expected actual), .ok target⟩] ++
            [⟨.backend (.open actual), .ok source⟩]) := ⟨actual, _, confirmed, rfl⟩
      refine Prog.traces_call.mpr ⟨.copy allocated, ?_⟩
      rintro (e | evidence)
      · trivial
      refine Prog.traces_guard.mpr ⟨fun _ => trivial, fun same => ?_⟩
      rw [not_or, not_not, not_not] at same
      refine Prog.traces_op.mpr ⟨.commitRecall allocated rfl same.1 same.2 ?_,
        fun _ => Prog.traces_ret.mpr trivial⟩
      rintro ⟨c, t, e, x, hm⟩
      simp at hm
    · exact Prog.traces_ret.mpr trivial
  · exact Prog.traces_ret.mpr trivial

/-- Only what is proven is attached and published: every call of `archive` and of `recall` comes
after the answers that justify it. -/
theorem transfers_proven :
    (∀ ctx data key past c, (archive ctx data key).run.Makes past c →
      Archives ctx data key past c) ∧
    ∀ ctx expected key past c, («recall» ctx expected key).run.Makes past c →
      Recalls ctx expected key past c :=
  ⟨fun _ _ _ _ _ h => traces_archive.makes h, fun _ _ _ _ _ h => traces_recall.makes h⟩

def offline : EntityState := { twice with residency := .offline, revision := 4 }

theorem transfers_proven_offline : ∃ past target evidence,
    Recalls ⟨"recall", 1, 1⟩ offline ⟨"b", "p"⟩ past
      (.storage (.commitRecall ⟨"recall", 1, 1⟩ target evidence)) := by
  have h : ∃ past target evidence, («recall» ⟨"recall", 1, 1⟩ offline ⟨"b", "p"⟩).run.Makes past
      (.storage (.commitRecall ⟨"recall", 1, 1⟩ target evidence)) := by
    apply Exists.intro
    apply Exists.intro
    apply Exists.intro
    refine .later (x := .ok none) rfl
      (.later (x := .ok (.committed (offline.anchors.get ⟨1, by decide⟩))) rfl ?_)
    refine .later (x := .ok ⟨offline.data, "u", ⟨"b", "p"⟩, ⟨"local-managed-v1", []⟩⟩) rfl
      (.later (x := .ok ⟨"local-managed-v1", []⟩) rfl ?_)
    exact .later (x := .ok ⟨1, ⟨"blake3", [0]⟩⟩) rfl (.torn rfl)
  obtain ⟨past, target, evidence, h⟩ := h
  exact ⟨past, target, evidence, transfers_proven.2 _ _ _ _ _ h⟩

end HsmRs.HsmEngine
