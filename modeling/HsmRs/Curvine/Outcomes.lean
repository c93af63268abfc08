import HsmRs.Curvine.Control
import HsmRs.Engine.Release

/-! # Outcomes over Curvine

Whatever a server answers, the states that an engine over Curvine returns have been
checked: each is a valid state of the data that was asked for, and one that proves
the action.
-/

namespace HsmRs

section

variable {S : Sig} {α : Type} {p : Prog S α} {past : List (Event S)} {a : α}

theorem Prog.yields_of_runs {σ : Type} {M : Machine S σ} {s s' : σ} (h : Runs M p s a s') :
    p.Yields (fun _ _ => True) a := by
  induction h with
  | ret => rfl
  | op _ _ ih => exact ⟨_, trivial, ih⟩

theorem Prog.Ends.yields (h : p.Ends past a) : p.Yields (fun _ _ => True) a :=
  Prog.yields_of_runs h

end

/-! ## Where the workflows get their results -/

namespace HsmEngine

variable {A : (c : Call) → c.Ans → Prop} {ctx : OperationContext} {data : DataKey}
  {key : ArchiveKey} {expected s : EntityState}

theorem attach_yields {view : DataView} {receipt : ArchiveReceipt}
    (h : (attach ctx data key view receipt).run.Yields A (.ok s)) :
    receipt.Attests data key view.length view.digest ∧
      A (.storage (.commitArchive ctx view receipt)) (.ok s) := by
  obtain ⟨u, hc, x, hx, rfl⟩ := Prog.yields_bind_ok.mp h
  exact ⟨checkReceipt_eq_ok.mp (Prog.yields_liftM_ok.mp hc), hx⟩

theorem archive_yields (h : (archive ctx data key).run.Yields A (.ok s)) :
    A (.storage (.completed ctx data (.archive key))) (.ok (some s)) ∨
    ∃ view receipt, A (.storage (.prepareArchive ctx data)) (.ok view) ∧
      receipt.Attests data key view.length view.digest ∧
      A (.storage (.commitArchive ctx view receipt)) (.ok s) := by
  obtain ⟨-, -, h⟩ := Prog.yields_bind_ok.mp h
  obtain ⟨r, ⟨x, hx, rfl⟩, h⟩ := Prog.yields_bind_ok.mp h
  cases r with
  | some s' =>
    cases Prog.yields_pure_ok.mp h
    exact .inl hx
  | none =>
    obtain ⟨view, ⟨y, hy, rfl⟩, h⟩ := Prog.yields_bind_ok.mp h
    obtain ⟨status, -, h⟩ := Prog.yields_bind_ok.mp h
    refine .inr ⟨view, ?_⟩
    cases status with
    | committed receipt => exact ⟨receipt, hy, attach_yields h⟩
    | absent =>
      obtain ⟨receipt, -, h⟩ := Prog.yields_bind_ok.mp h
      exact ⟨receipt, hy, attach_yields h⟩
    | pending => cases h
    | unknown => cases h

theorem release_yields (h : (release ctx expected).run.Yields A (.ok s)) :
    A (.storage (.completed ctx expected.data .release)) (.ok (some s)) ∨
    expected.anchors ≠ [] ∧ A (.storage (.release ctx expected)) (.ok s) := by
  obtain ⟨-, -, h⟩ := Prog.yields_bind_ok.mp h
  obtain ⟨r, ⟨x, hx, rfl⟩, h⟩ := Prog.yields_bind_ok.mp h
  cases r with
  | some s' =>
    cases Prog.yields_pure_ok.mp h
    exact .inl hx
  | none =>
    obtain ⟨actual, -, h⟩ := Prog.yields_bind_ok.mp h
    obtain ⟨-, h⟩ := Prog.yields_guard_ok.mp h
    obtain ⟨anchored, h⟩ := Prog.yields_guard_ok.mp h
    obtain ⟨verified, -, h⟩ := Prog.yields_bind_ok.mp h
    cases verified with
    | true =>
      obtain ⟨y, hy, rfl⟩ := h
      exact .inr ⟨anchored, hy⟩
    | false => cases h

theorem recall_yields (h : («recall» ctx expected key).run.Yields A (.ok s)) :
    A (.storage (.completed ctx expected.data (.«recall» key))) (.ok (some s)) ∨
    ∃ anchor target evidence, anchor.key = key ∧
      A (.storage (.prepareRecall ctx expected anchor)) (.ok target) ∧
      A (.storage (.commitRecall ctx target evidence)) (.ok s) := by
  obtain ⟨-, -, h⟩ := Prog.yields_bind_ok.mp h
  obtain ⟨r, ⟨x, hx, rfl⟩, h⟩ := Prog.yields_bind_ok.mp h
  cases r with
  | some s' =>
    cases Prog.yields_pure_ok.mp h
    exact .inl hx
  | none =>
    obtain ⟨-, h⟩ := Prog.yields_guard_ok.mp h
    cases hf : expected.anchors.find? (fun a => a.key = key) with
    | none =>
      rw [hf] at h
      cases h
    | some anchor =>
      rw [hf] at h
      obtain ⟨-, -, h⟩ := Prog.yields_bind_ok.mp h
      obtain ⟨status, -, h⟩ := Prog.yields_bind_ok.mp h
      cases status with
      | committed actual =>
        obtain ⟨-, h⟩ := Prog.yields_guard_ok.mp h
        obtain ⟨target, ⟨y, hy, rfl⟩, h⟩ := Prog.yields_bind_ok.mp h
        obtain ⟨source, -, h⟩ := Prog.yields_bind_ok.mp h
        obtain ⟨evidence, -, h⟩ := Prog.yields_bind_ok.mp h
        obtain ⟨-, h⟩ := Prog.yields_guard_ok.mp h
        obtain ⟨z, hz, rfl⟩ := h
        exact .inr ⟨anchor, target, evidence, by simpa using List.find?_some hf, hy, hz⟩
      | absent => cases h
      | pending => cases h
      | unknown => cases h

end HsmEngine

/-! ## What the adapter accepts -/

structure EntityState.Valid (s : EntityState) : Prop where
  generation : s.data.generation ≠ 0
  revision : s.revision ≠ 0
  anchors : ∀ a ∈ s.anchors, a.Attests s.data a.key s.length s.digest ∧
    a.key.backend ≠ "" ∧ a.key.object ≠ ""
  residency : s.residency ≠ .online → s.anchors ≠ []

theorem validateState_valid {s : EntityState} (h : validateState s = .ok ()) : s.Valid := by
  unfold validateState at h
  split at h
  · cases h
  rename_i hn
  simp only [not_or, not_not] at hn
  obtain ⟨-, -, -, hg, hr, -, -, ha, hres⟩ := hn
  refine ⟨hg, hr, fun a hm => ?_, fun ho => ?_⟩
  · have := List.all_eq_true.mp ha a hm
    simp only [validAnchor, Bool.and_eq_true, decide_eq_true_eq] at this
    obtain ⟨⟨⟨⟨⟨⟨h₁, h₂⟩, h₃⟩, h₄⟩, h₅⟩, h₆⟩, h₇⟩ := this
    exact ⟨⟨rfl, h₁, h₂, h₃, h₆, h₇⟩, h₄, h₅⟩
  · unfold validResidency at hres
    split at hres
    · exact (ho ‹_›).elim
    · simpa using hres
    · simpa using hres

namespace CurvineStorage

variable [ControlJson] {self : CurvineStorage} {A : (c : CurvineCall) → c.Ans → Prop}
  {ctx : OperationContext} {data : DataKey} {s : EntityState}

theorem state_yields {request : ControlRequest}
    (h : (state request data).run.Yields A (.ok s)) : s.data = data ∧ s.Valid := by
  obtain ⟨reply, -, h⟩ := Prog.yields_bind_ok.mp h
  cases reply with
  | entity s' =>
    dsimp only at h
    split at h
    · obtain ⟨u, hv, h⟩ := Prog.yields_bind_ok.mp h
      cases Prog.yields_pure_ok.mp h
      exact ⟨‹_›, validateState_valid (Prog.yields_liftM_ok.mp hv)⟩
    · cases h
  | _ => cases h

theorem completed_yields {action : ManagedAction}
    (h : (self.completed ctx data action).run.Yields A (.ok (some s))) :
    s.data = data ∧ s.Valid ∧ matchesAction action s := by
  obtain ⟨-, -, h⟩ := Prog.yields_bind_ok.mp h
  obtain ⟨-, -, h⟩ := Prog.yields_bind_ok.mp h
  obtain ⟨reply, -, h⟩ := Prog.yields_bind_ok.mp h
  cases reply with
  | completed o =>
    cases o with
    | none => cases Prog.yields_pure_ok.mp h
    | some s' =>
      dsimp only at h
      split at h
      · obtain ⟨u, hv, h⟩ := Prog.yields_bind_ok.mp h
        obtain ⟨hm, h⟩ := Prog.yields_guard_ok.mp h
        cases Prog.yields_pure_ok.mp h
        exact ⟨‹_›, validateState_valid (Prog.yields_liftM_ok.mp hv), not_not.mp hm⟩
      · cases h
  | _ => cases h

theorem prepareArchive_yields {view : DataView}
    (h : (self.prepareArchive ctx data).run.Yields A (.ok view)) : view.data = data := by
  obtain ⟨-, -, h⟩ := Prog.yields_bind_ok.mp h
  obtain ⟨-, -, h⟩ := Prog.yields_bind_ok.mp h
  obtain ⟨reply, -, h⟩ := Prog.yields_bind_ok.mp h
  cases reply with
  | view v =>
    dsimp only at h
    split at h
    · cases Prog.yields_pure_ok.mp h
      rename_i hv
      exact hv.1
    · cases h
  | _ => cases h

theorem commitArchive_yields {view : DataView} {receipt : ArchiveReceipt}
    (h : (self.commitArchive ctx view receipt).run.Yields A (.ok s)) :
    s.data = view.data ∧ s.Valid ∧ s.residency = .dual ∧ receipt ∈ s.anchors := by
  obtain ⟨-, -, h⟩ := Prog.yields_bind_ok.mp h
  obtain ⟨-, -, h⟩ := Prog.yields_bind_ok.mp h
  obtain ⟨-, h⟩ := Prog.yields_guard_ok.mp h
  obtain ⟨s', hs, h⟩ := Prog.yields_bind_ok.mp h
  obtain ⟨hn, h⟩ := Prog.yields_guard_ok.mp h
  cases Prog.yields_pure_ok.mp h
  simp only [not_or, not_not, ne_eq] at hn
  obtain ⟨hd, hv⟩ := state_yields hs
  exact ⟨hd, hv, hn.1, hn.2.2.2⟩

theorem release_yields {expected : EntityState}
    (h : (self.release ctx expected).run.Yields A (.ok s)) :
    s.data = expected.data ∧ s.Valid ∧ s.residency = .offline := by
  obtain ⟨-, -, h⟩ := Prog.yields_bind_ok.mp h
  obtain ⟨-, -, h⟩ := Prog.yields_bind_ok.mp h
  obtain ⟨-, -, h⟩ := Prog.yields_bind_ok.mp h
  obtain ⟨s', hs, h⟩ := Prog.yields_bind_ok.mp h
  obtain ⟨hn, h⟩ := Prog.yields_guard_ok.mp h
  cases Prog.yields_pure_ok.mp h
  simp only [not_or, not_not, ne_eq] at hn
  obtain ⟨hd, hv⟩ := state_yields hs
  exact ⟨hd, hv, hn.1⟩

theorem prepareRecall_yields {expected : EntityState} {anchor : ArchiveReceipt}
    {target : RecallTarget}
    (h : (self.prepareRecall ctx expected anchor).run.Yields A (.ok target)) :
    target.data = expected.data ∧ target.archive = anchor.key := by
  obtain ⟨-, -, h⟩ := Prog.yields_bind_ok.mp h
  obtain ⟨-, -, h⟩ := Prog.yields_bind_ok.mp h
  obtain ⟨-, -, h⟩ := Prog.yields_bind_ok.mp h
  obtain ⟨-, h⟩ := Prog.yields_guard_ok.mp h
  obtain ⟨reply, -, h⟩ := Prog.yields_bind_ok.mp h
  cases reply with
  | «recall» t =>
    dsimp only at h
    split at h
    · cases Prog.yields_pure_ok.mp h
      rename_i ht
      exact ⟨ht.1, ht.2.1⟩
    · cases h
  | _ => cases h

theorem commitRecall_yields {target : RecallTarget} {evidence : TransferEvidence}
    (h : (self.commitRecall ctx target evidence).run.Yields A (.ok s)) :
    s.data = target.data ∧ s.Valid ∧ s.residency = .dual ∧ ∃ a ∈ s.anchors,
      a.key = target.archive := by
  obtain ⟨-, -, h⟩ := Prog.yields_bind_ok.mp h
  obtain ⟨-, -, h⟩ := Prog.yields_bind_ok.mp h
  obtain ⟨s', hs, h⟩ := Prog.yields_bind_ok.mp h
  obtain ⟨hn, h⟩ := Prog.yields_guard_ok.mp h
  cases Prog.yields_pure_ok.mp h
  simp only [not_or, not_not, ne_eq] at hn
  obtain ⟨hd, hv⟩ := state_yields hs
  exact ⟨hd, hv, hn.1, by simpa using hn.2.2.2⟩

/-- The states that `archive`, `release` and `recall` return over Curvine prove the action,
whatever the server, the backend and the mover answer. -/
theorem outcomes_proven (self : CurvineStorage) :
    (∀ ctx data key past s,
      ((HsmEngine.archive ctx data key).run.compile self.answer).Ends past (.ok s) →
      s.data = data ∧ s.residency = .dual ∧ (∃ a ∈ s.anchors, a.key = key) ∧ s.Valid) ∧
    (∀ ctx expected past s,
      ((HsmEngine.release ctx expected).run.compile self.answer).Ends past (.ok s) →
      s.data = expected.data ∧ s.residency = .offline ∧ s.anchors ≠ [] ∧ s.Valid) ∧
    ∀ ctx expected key past s,
      ((HsmEngine.recall ctx expected key).run.compile self.answer).Ends past (.ok s) →
      s.data = expected.data ∧ s.residency = .dual ∧ (∃ a ∈ s.anchors, a.key = key) ∧ s.Valid := by
  refine ⟨fun ctx data key past s h => ?_, fun ctx expected past s h => ?_,
    fun ctx expected key past s h => ?_⟩
  · rcases HsmEngine.archive_yields
      (Prog.yields_compile.mp h.yields) with h | ⟨view, receipt, hp, hr, h⟩
    · obtain ⟨hd, hv, hm⟩ := completed_yields h
      simp only [matchesAction, Bool.and_eq_true, decide_eq_true_eq, List.any_eq_true] at hm
      exact ⟨hd, hm.1, hm.2, hv⟩
    · obtain ⟨hd, hv, hres, ha⟩ := commitArchive_yields h
      exact ⟨hd.trans (prepareArchive_yields hp), hres, ⟨receipt, ha, hr.key_eq⟩, hv⟩
  · rcases HsmEngine.release_yields (Prog.yields_compile.mp h.yields) with h | ⟨-, h⟩
    · obtain ⟨hd, hv, hm⟩ := completed_yields h
      simp only [matchesAction, decide_eq_true_eq] at hm
      exact ⟨hd, hm, hv.residency (by simp [hm]), hv⟩
    · obtain ⟨hd, hv, hres⟩ := release_yields h
      exact ⟨hd, hres, hv.residency (by simp [hres]), hv⟩
  · rcases HsmEngine.recall_yields (Prog.yields_compile.mp h.yields) with
      h | ⟨anchor, target, evidence, hk, hp, h⟩
    · obtain ⟨hd, hv, hm⟩ := completed_yields h
      simp only [matchesAction, Bool.and_eq_true, decide_eq_true_eq, List.any_eq_true] at hm
      exact ⟨hd, hm.1, hm.2, hv⟩
    · obtain ⟨hd, hv, hres, a, ha, hka⟩ := commitRecall_yields h
      obtain ⟨ht, hta⟩ := prepareRecall_yields hp
      exact ⟨hd.trans ht, hres, ⟨a, ha, hka.trans (hta.trans hk)⟩, hv⟩

end CurvineStorage

end HsmRs
