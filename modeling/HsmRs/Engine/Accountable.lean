import HsmRs.Engine.Intent

/-! # Effects and reports

When `run_intent` has issued an effect, it reports on the lease under its claim before it
returns. The claim is looked for only when the work is done, so that a running lease
without one is worked on and never reported.
-/

namespace HsmRs

/-- The calls that change something, at the storage, the backend or the destination of a copy. -/
def Call.Effect : Call → Prop
  | .storage (.prepareArchive _ _) | .storage (.commitArchive _ _ _) | .storage (.release _ _)
  | .storage (.prepareRecall _ _ _) | .storage (.commitRecall _ _ _) | .backend (.prepare _ _ _)
  | .backend (.commit _ _ _ _) | .copy _ _ _ => True
  | _ => False

def Call.Asks (c : Call) : Prop := ¬ c.Effect

def IntentCall.Effect : IntentCall → Prop
  | .adapter c => c.Effect
  | _ => False

def IntentCall.Report : IntentCall → Prop
  | .finishIntent _ _ _ => True
  | _ => False

namespace HsmEngine

/-- The last of the calls, and the only one of its kind, reports on the lease under its claim. -/
def Settled (lease : LifecycleIntent) (calls : List (Event intentSig)) : Prop :=
  ∃ claim before report answer, lease.claim = some claim ∧
    calls = before ++ [⟨.finishIntent (finishContext lease claim) lease report, answer⟩] ∧
    ∀ e ∈ before, ¬ e.op.Report

/-- A run that is given the lease and has issued an effect has settled it when it returns. -/
def Accountable (lease : LifecycleIntent) : Prop :=
  ∀ claimContext id owner calls answer,
    (runIntent claimContext id owner).Ends
      (⟨.claimIntent claimContext id owner, .ok lease⟩ :: calls)
      answer → (∃ e ∈ calls, e.op.Effect) → lease.status = .running ∧ Settled lease calls

/-- The work on the lease can come to an effect. -/
def Effective (lease : LifecycleIntent) : Prop :=
  lease.context.validate = .ok () ∧ match lease.action with
    | .archive _ => True
    | .release => ∃ anchor rest, lease.expected.anchors = anchor :: rest ∧
        checkReceipt anchor lease.expected.data anchor.key lease.expected.length
          lease.expected.digest = .ok ()
    | .«recall» key => lease.expected.residency = .offline ∧ ∃ anchor,
        lease.expected.anchors.find? (fun a => a.key = key) = some anchor ∧
          checkReceipt anchor lease.expected.data key lease.expected.length
            lease.expected.digest = .ok ()

/-! ## Which work can come to an effect -/

section

variable {lease : LifecycleIntent} {ctx : OperationContext} {expected : EntityState}
  {key : ArchiveKey}

section

variable {α β : Type} {P : Call → Prop}

theorem within_any {c : Call} {g : c.Ans → HsmResult α} {p : Workflow α} {f : α → Workflow β}
    (hp : p = ExceptT.mk (.op c fun x => .ret (g x))) (hg : ∀ a, ∃ x, g x = .ok a) :
    (p >>= f).run.Within P ↔ P c ∧ ∀ a, (f a).run.Within P := by
  subst hp
  refine Prog.within_call.trans (and_congr_right fun _ => ?_)
  constructor
  · intro h a
    obtain ⟨x, hx⟩ := hg a
    exact h x a hx
  · exact fun h _ a _ => h a

variable {ctx : OperationContext} {data : DataKey} {action : ManagedAction}

theorem within_completed {f : Option EntityState → Workflow β} :
    (completed ctx data action >>= f).run.Within P ↔
      P (.storage (.completed ctx data action)) ∧ ∀ a, (f a).run.Within P :=
  within_any (g := fun x => x) rfl fun a => ⟨.ok a, rfl⟩

theorem within_inspectEntity {entity : EntityKey} {f : EntityState → Workflow β} :
    (inspectEntity entity >>= f).run.Within P ↔
      P (.storage (.inspect entity)) ∧ ∀ a, (f a).run.Within P :=
  within_any (g := fun x => x) rfl fun a => ⟨.ok a, rfl⟩

theorem within_inspectArchive {key : ArchiveKey} {f : ArchiveStatus → Workflow β} :
    (inspectArchive key >>= f).run.Within P ↔
      P (.backend (.inspect key)) ∧ ∀ a, (f a).run.Within P :=
  within_any (g := fun x => x) rfl fun a => ⟨.ok a, rfl⟩

end

theorem asks_archive_iff {data : DataKey} :
    (archive ctx data key).run.Within Call.Asks ↔ ctx.validate ≠ .ok () := by
  rw [archive, Prog.within_check]
  constructor
  · intro h hv
    have prepare := (within_completed.mp (h () hv)).2 none
    exact (prepare.1 trivial).elim
  · exact fun h a ha => (h ha).elim

/-- The first anchor that is asked for may be the one that is found. -/
theorem asks_verifyAnchors_iff (expected : EntityState) (anchors : List ArchiveReceipt)
    {f : Bool → Workflow EntityState}
    (hf : (f false).run.Within Call.Asks) (ht : ¬ (f true).run.Within Call.Asks) :
    (verifyAnchors expected anchors >>= f).run.Within Call.Asks ↔
      ¬ ∃ anchor rest, anchors = anchor :: rest ∧ checkReceipt anchor expected.data anchor.key
        expected.length expected.digest = .ok () := by
  cases anchors with
  | nil => exact ⟨fun _ ⟨_, _, h, _⟩ => (nomatch h), fun _ => hf⟩
  | cons anchor rest =>
    unfold verifyAnchors
    cases hc : checkReceipt anchor expected.data anchor.key expected.length expected.digest with
    | error e =>
      refine ⟨fun _ => ?_, fun _ => trivial⟩
      rintro ⟨_, _, h, hc'⟩
      cases h
      rw [hc] at hc'
      cases hc'
    | ok =>
      refine ⟨fun h => (ht ?_).elim, fun h => (h ⟨anchor, rest, rfl, hc⟩).elim⟩
      have h : ((if anchor = anchor then pure true else verifyAnchors expected rest :
          Workflow Bool) >>= f).run.Within Call.Asks := h.2 (.ok (.committed anchor))
      rw [if_pos rfl] at h
      exact h

theorem asks_release_iff :
    (release ctx expected).run.Within Call.Asks ↔ ¬ (ctx.validate = .ok () ∧
      ∃ anchor rest, expected.anchors = anchor :: rest ∧
        checkReceipt anchor expected.data anchor.key
        expected.length expected.digest = .ok ()) := by
  rw [release, Prog.within_check]
  have anchors := asks_verifyAnchors_iff expected expected.anchors
    (f := fun b => if b = true then ExceptT.mk (Workflow.storage (.release ctx expected))
      else throw (.integrity "no verified committed recovery source")) trivial fun h => h.1 trivial
  constructor
  · rintro h ⟨hv, ha⟩
    have h := (within_inspectEntity.mp ((within_completed.mp (h () hv)).2 none)).2 expected
    have h := Prog.within_guard_iff.mp (Prog.within_guard_iff.mp h (not_not.mpr rfl)) fun hn => by
      obtain ⟨_, _, ha, -⟩ := ha
      rw [hn] at ha
      cases ha
    exact anchors.mp h ha
  · intro h a hv
    refine within_completed.mpr ⟨not_false, ?_⟩
    rintro (_ | s)
    · refine within_inspectEntity.mpr ⟨not_false, fun actual => ?_⟩
      refine Prog.within_guard_iff.mpr fun _ => Prog.within_guard_iff.mpr fun _ => ?_
      exact anchors.mpr fun ha => h ⟨hv, ha⟩
    · trivial

theorem asks_recall_iff :
    («recall» ctx expected key).run.Within Call.Asks ↔ ¬ (ctx.validate = .ok () ∧
      expected.residency = .offline ∧ ∃ anchor,
        expected.anchors.find? (fun a => a.key = key) = some anchor ∧
          checkReceipt anchor expected.data key expected.length expected.digest = .ok ()) := by
  rw [«recall», Prog.within_check]
  constructor
  · rintro h ⟨hv, ho, anchor, ha, hc⟩
    have h := Prog.within_guard_iff.mp ((within_completed.mp (h () hv)).2 none) (not_not.mpr ho)
    rw [ha] at h
    have h := (within_inspectArchive.mp (Prog.within_check.mp h () hc)).2 (.committed anchor)
    have prepare := Prog.within_guard_iff.mp h (not_not.mpr rfl)
    exact prepare.1 trivial
  · intro h a hv
    refine within_completed.mpr ⟨not_false, ?_⟩
    rintro (_ | s)
    · refine Prog.within_guard_iff.mpr fun ho => ?_
      cases ha : expected.anchors.find? (fun a => a.key = key) with
      | none => trivial
      | some anchor =>
        refine Prog.within_check.mpr fun _ hc => ?_
        exact (h ⟨hv, not_not.mp ho, anchor, ha, hc⟩).elim
    · trivial

theorem asks_act_iff {α β : Type} {w : Workflow α} {b : β} :
    (w >>= fun _ => pure b).run.Within Call.Asks ↔ w.run.Within Call.Asks :=
  ⟨Prog.Within.of_bind, fun h => Prog.within_bind h fun _ => trivial⟩

theorem asks_work_iff : (work lease).run.Within Call.Asks ↔ ¬ Effective lease := by
  have act : (match lease.action with
      | .archive key => archive lease.context lease.expected.data key >>= fun _ => pure .done
      | .release => release lease.context lease.expected >>= fun _ => pure .done
      | .«recall» key => «recall» lease.context lease.expected key >>= fun _ => pure .done :
        Workflow IntentCompletion).run.Within Call.Asks ↔ ¬ Effective lease := by
    unfold Effective
    cases lease.action with
    | archive key => simp only [asks_act_iff, asks_archive_iff, and_true, ne_eq]
    | release => simp only [asks_act_iff, asks_release_iff]
    | «recall» key => simp only [asks_act_iff, asks_recall_iff]
  rw [work, within_completed, ← act]
  constructor
  · intro h
    have h := (within_inspectEntity.mp (h.2 none)).2 lease.expected
    simp only [ne_eq, not_true_eq_false, if_false] at h
    exact h
  · refine fun h => ⟨not_false, ?_⟩
    rintro (_ | s)
    · refine within_inspectEntity.mpr ⟨not_false, fun actual => ?_⟩
      dsimp only
      split
      · trivial
      · exact h
    · trivial

end

/-! ## Runs on a lease -/

instance (c : IntentCall) : Nonempty c.Ans := by
  rcases c with _ | _ | ⟨c | c | _⟩
  case adapter.storage => cases c <;> exact ⟨.error (.busy "")⟩
  case adapter.backend => cases c <;> exact ⟨.error (.busy "")⟩
  all_goals exact ⟨.error (.busy "")⟩

section

variable {lease : LifecycleIntent} {claimContext : OperationContext} {id owner : String}
  {calls : List (Event intentSig)} {answer : HsmResult LifecycleIntent}

theorem within_within {α : Type} {P : IntentCall → Prop} {p : Prog engineSig α} :
    (Workflow.within p).Within P ↔ p.Within (fun c => P (.adapter c)) := by
  induction p with
  | ret a => exact Iff.rfl
  | op c k ih => exact and_congr_right fun _ => forall_congr' ih

theorem ends_claimed
    (h : (runIntent claimContext id owner).Ends
      (⟨.claimIntent claimContext id owner, .ok lease⟩ :: calls) answer) :
    lease.status ≠ .running ∧ calls = [] ∨ lease.status = .running ∧
      Runs (adversary intentSig) (Workflow.within (work lease).run >>= finish lease)
        ⟨[⟨.claimIntent claimContext id owner, .ok lease⟩], none⟩ answer
        ⟨⟨.claimIntent claimContext id owner, .ok lease⟩ :: calls, none⟩ := by
  cases h with
  | @op _ _ _ s _ x _ hs hr =>
    obtain rfl := hs
    obtain ⟨more, grown⟩ := Prog.traces_grow.runs hr
    obtain rfl : x = .ok lease := by
      cases grown
      rfl
    dsimp only at hr
    by_cases running : lease.status = .running
    · rw [if_neg (not_not.mpr running)] at hr
      exact .inr ⟨running, hr⟩
    · rw [if_pos running] at hr
      cases hr
      exact .inl ⟨running, rfl⟩

theorem settled_of_claim {claim : IntentClaim} (hc : lease.claim = some claim)
    (h : Runs (adversary intentSig) (Workflow.within (work lease).run >>= finish lease)
      ⟨[⟨.claimIntent claimContext id owner, .ok lease⟩], none⟩ answer
      ⟨⟨.claimIntent claimContext id owner, .ok lease⟩ :: calls, none⟩) : Settled lease calls := by
  have adapters : (Workflow.within (work lease).run).Within fun c : IntentCall => ¬ c.Report :=
    within_within.mpr (Prog.within_of_forall fun _ => not_false)
  have traces : (Workflow.within (work lease).run >>= finish lease).Traces (fun _ _ => True)
      (fun _ past => ∃ before report x, past = [⟨.claimIntent claimContext id owner, .ok lease⟩] ++
        before ++ [⟨.finishIntent (finishContext lease claim) lease report, x⟩] ∧
        ∀ e ∈ before, ¬ e.op.Report) [⟨.claimIntent claimContext id owner, .ok lease⟩] := by
    refine Prog.traces_bind.mpr (adapters.adds.mono (fun _ _ h => h) ?_)
    rintro r _ ⟨before, rfl, hb⟩
    simp only [finish, hc]
    exact Prog.traces_op.mpr ⟨trivial, fun x => Prog.traces_ret.mpr ⟨before, _, x, rfl, hb⟩⟩
  obtain ⟨before, report, x, he, hb⟩ := traces.runs h
  simp only [List.cons_append, List.nil_append, List.cons.injEq, true_and] at he
  exact ⟨claim, before, report, x, hc, he, hb⟩

theorem asks_of_not_effective (he : ¬ Effective lease)
    (h : Runs (adversary intentSig) (Workflow.within (work lease).run >>= finish lease)
      ⟨[⟨.claimIntent claimContext id owner, .ok lease⟩], none⟩ answer
      ⟨⟨.claimIntent claimContext id owner, .ok lease⟩ :: calls, none⟩) :
    ∀ e ∈ calls, ¬ e.op.Effect := by
  have asks : (Workflow.within (work lease).run >>= finish lease).Within fun c :
    IntentCall => ¬ c.Effect := by
    refine .bind (within_within.mpr (asks_work_iff.mpr he)) fun r => ?_
    unfold finish
    split
    · trivial
    · exact ⟨not_false, fun _ => trivial⟩
  obtain ⟨more, hm, ha⟩ := asks.adds.runs h
  simp only [List.cons_append, List.nil_append, List.cons.injEq, true_and] at hm
  exact hm ▸ ha

/-- Work on a lease without a claim that can come to an effect has a run with one. -/
theorem exists_effect (claimContext : OperationContext) (id owner : String)
    (running : lease.status = .running) (he : Effective lease) :
    ∃ calls answer, (runIntent claimContext id owner).Ends
      (⟨.claimIntent claimContext id owner, .ok lease⟩ :: calls) answer ∧
      ∃ e ∈ calls, e.op.Effect := by
  have not_asks : ¬ (Workflow.within (work lease).run >>= finish lease).Within
      fun c : IntentCall => ¬ c.Effect :=
    fun h => asks_work_iff.mp (within_within.mp (Prog.Within.of_bind h)) he
  obtain ⟨more, o, hc, ho⟩ := Prog.exists_cuts_of_not_within not_asks
    ([⟨.claimIntent claimContext id owner, .ok lease⟩] : List (Event intentSig))
  have makes : (runIntent claimContext id owner).Makes
      ([⟨.claimIntent claimContext id owner, .ok lease⟩] ++ more) o := by
    refine .later (x := .ok lease) rfl ?_
    dsimp only
    rw [if_neg (not_not.mpr running)]
    exact hc
  obtain ⟨x⟩ : Nonempty (intentSig.Ans o) := inferInstance
  obtain ⟨rest, answer, h⟩ := Prog.Makes.resume makes x
  refine ⟨more ++ [⟨o, x⟩] ++ rest, answer, by simpa using h, ⟨o, x⟩, by simp, not_not.mp ho⟩

/-- A run is only given a lease that a claim has returned, and it has settled the lease when it
returns after an effect, exactly for the leases that are not running, have a claim, or whose
work cannot come to an effect. -/
theorem accountable_iff (lease : LifecycleIntent) :
    (∀ claimContext id owner calls answer, (runIntent claimContext id owner).Ends calls answer →
      (∃ e ∈ calls, e.op.Effect) → ∃ lease rest,
        calls = ⟨.claimIntent claimContext id owner, .ok lease⟩ :: rest) ∧
    (Accountable lease ↔ lease.status ≠ .running ∨ lease.claim.isSome ∨ ¬ Effective lease) := by
  refine ⟨fun claimContext id owner calls answer h => ?_, fun h => ?_, fun h => ?_⟩
  · rintro ⟨e, he, hx⟩
    cases h with
    | @op _ _ _ s _ x _ hs hr =>
      obtain rfl := hs
      rcases x with error | lease
      · cases hr
        rw [List.mem_singleton.mp he] at hx
        exact hx.elim
      · obtain ⟨more, grown⟩ := Prog.traces_grow.runs hr
        exact ⟨lease, more, grown.symm⟩
  · by_contra hn
    push Not at hn
    obtain ⟨running, hc, he⟩ := hn
    obtain ⟨calls, answer, hr, effect⟩ :=
      exists_effect ⟨"claim", 1, 1⟩ lease.id "" running he
    obtain ⟨-, claim, -, -, -, hs, -⟩ := h _ _ _ _ _ hr effect
    rw [hs] at hc
    exact hc rfl
  · intro claimContext id owner calls answer hr effect
    obtain ⟨hn, rfl⟩ | ⟨running, hr⟩ := ends_claimed hr
    · obtain ⟨e, he, -⟩ := effect
      cases he
    · refine ⟨running, ?_⟩
      rcases h with h | h | h
      · exact (h running).elim
      · obtain ⟨claim, hc⟩ := Option.isSome_iff_exists.mp h
        exact settled_of_claim hc hr
      · obtain ⟨e, he, hx⟩ := effect
        exact (asks_of_not_effective h hr e he hx).elim

end

def unclaimed : LifecycleIntent := { lease with claim := none }

/-- It is released, and nothing is reported. -/
theorem not_accountable_unclaimed : ¬ Accountable unclaimed := by
  intro h
  have effective : Effective unclaimed := ⟨rfl, _, _, rfl, rfl⟩
  obtain ⟨calls, answer, hr, effect⟩ := @exists_effect unclaimed
    ⟨"claim", 1, 1⟩ "i" "w" rfl effective
  obtain ⟨-, claim, -, -, -, hs, -⟩ := h _ _ _ _ _ hr effect
  cases hs

end HsmEngine

end HsmRs
