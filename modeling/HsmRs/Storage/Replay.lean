import HsmRs.Storage.History

/-! # Replayed answers

A step that has answered for good answers the same for ever: its record is never
changed, and a recorded step answers from its record. Another request under the
same context and step is refused.
-/

namespace HsmRs

section

variable {κ : Type} [DecidableEq κ] [KeyHash κ] [Crates] {root : Dir} {st : State κ}
  {ctx : OperationContext} {request : StepRequest} {self : LocalStorage κ} {saved : SavedStep κ}
  {answer : HsmResult Reply}

open LocalStorage

theorem perform_unqualified {e : HsmError} (hq : qualify ctx = .error e) :
    self.perform (.step ctx request) = .ret (.error e, self) := by
  cases request <;>
    simp only [LocalStorage.perform, LocalStorage.performStep, LocalStorage.prepareArchive,
      LocalStorage.commitArchive, LocalStorage.release, LocalStorage.prepareRecall,
      LocalStorage.commitRecall, LocalStorage.step, hq] <;> rfl

theorem perform_replayed (hp : self.poisoned = false) (hq : qualify ctx = .ok ())
    (hl : self.state.steps.lookup (key (.step ctx request.name)) = some saved) :
    self.perform (.step ctx request) =
      .ret (replayed saved (key (.request ctx request)) request, self) := by
  cases request <;>
    simp only [StepRequest.name] at hl <;>
    simp only [LocalStorage.perform, LocalStorage.performStep, LocalStorage.prepareArchive,
      LocalStorage.commitArchive, LocalStorage.release, LocalStorage.prepareRecall,
      LocalStorage.commitRecall, LocalStorage.step, hq, healthy_eq_ok.mpr hp, StepRequest.name,
      hl] <;> rfl

omit [DecidableEq κ] [KeyHash κ] [Crates] in
theorem replayed_failure [DecidableEq κ] {fingerprint : κ} {f : SavedFailure} :
    replayed ⟨fingerprint, .error f⟩ fingerprint request = .error f.intoError := by
  cases request <;> simp [replayed, replay, Except.map]

omit [KeyHash κ] in
theorem Effect.replayed {fresh : String → Prop} {next : State κ} {value : StepValue}
    {fingerprint : κ} (h : Effect root fresh st ctx request value next) :
    LocalStorage.replayed ⟨fingerprint, .ok value⟩ fingerprint request = .ok (.value value) := by
  cases h <;>
    simp [LocalStorage.replayed, replay, Recorded.fromValue, Except.map, Except.mapError]

omit [Crates] in
theorem replayed_conflict (h : saved.fingerprint ≠ key (.request ctx request)) :
    replayed saved (key (.request ctx request)) request =
      .error (.conflict "operation step reused with different inputs") := by
  cases request <;> simp [replayed, replay, h, Except.map]

/-! ## What is recorded -/

/-- Every record was made under the key of its step, by a request of a qualified context. -/
def State.Filed (st : State κ) : Prop :=
  ∀ k saved, st.steps.lookup k = some saved → ∃ ctx request, qualify ctx = .ok () ∧
    k = key (.step ctx request.name) ∧ saved.fingerprint = key (.request ctx request)

omit [Crates] in
theorem State.Filed.record (h : st.Filed) (hq : qualify ctx = .ok ())
    {result : Except SavedFailure StepValue} :
    (st.record (key (.step ctx request.name)) ⟨key (.request ctx request), result⟩).Filed := by
  intro k saved hk
  simp only [State.record, Table.lookup_insert] at hk
  split at hk
  · cases hk
    exact ⟨ctx, request, hq, by assumption, rfl⟩
  · exact h k saved hk

theorem State.Filed.closed : Closed root (State.Filed : State κ → Prop) := by
  intro fresh st request answer next h hs
  cases hs with
  | failed hq _ => exact h.record hq
  | @done _ _ _ next hq _ he =>
    have : next.Filed := by
      intro k saved hk
      rw [he.steps] at hk
      exact h k saved hk
    exact this.record hq
  | _ => exact h

section

variable {π : Policy (FileName κ) (Content κ)} {w : World κ} {self' : LocalStorage κ}
  {s s' : Disk (FileName κ) (Content κ)}

/-- A call that answers for good was refused for its context, or it leaves a record that
answers the same. -/
theorem Outcome.answered (h : Outcome π self (.step ctx request) s answer self' s')
    (hd : ∀ e, answer = .error e → e.Definite) :
    (∃ e, qualify ctx = .error e ∧ answer = .error e) ∨
    qualify ctx = .ok () ∧ ∃ saved,
      self'.state.steps.lookup (key (.step ctx request.name)) = some saved ∧
      answer = replayed saved (key (.request ctx request)) request := by
  cases h with
  | kept ha =>
    cases ha with
    | unqualified hq => exact .inl ⟨_, hq, rfl⟩
    | replayed hq hl => exact .inr ⟨hq, _, hl, rfl⟩
    | uncertain _ _ he => exact (he (hd _ rfl)).elim
  | adopted ha =>
    cases ha with
    | failed hq hk =>
      exact .inr ⟨hq, ⟨_, _⟩, by simp [State.record], replayed_failure.symm⟩
    | done hq hk he => exact .inr ⟨hq, ⟨_, _⟩, by simp [State.record], he.replayed.symm⟩
  | poisoned _ he => exact (he (hd _ rfl)).elim

theorem World.Reachable.filed (h : w.Reachable π root) : w.Keeps π root fun _ st => st.Filed :=
  h.keeps State.Filed.closed.stable fun _ _ _ k saved hk => by simp [State.new] at hk

/-- In every run, a protected step that has answered a value or a definite failure gives the
same answer on every healthy handle ever after and does nothing; and a step that is recorded
refuses every other request. -/
theorem step_replayed (h : w.Reachable π root) (hw : w.handle = some self) :
    (∀ ctx request answer self' s',
      Runs (fsMachine π) (self.perform (.step ctx request)) w.disk (answer, self') s' →
      (∀ e, answer = .error e → e.Definite) →
      ∀ w' self'', World.Steps π root ⟨s', some self'⟩ w' → w'.handle = some self'' →
        self''.poisoned = false →
        self''.perform (.step ctx request) = .ret (answer, self'')) ∧
    (Function.Injective (key : Keyed → κ) → ∀ ctx name saved,
      self.state.steps.lookup (key (.step ctx name)) = some saved →
      ∃ request : StepRequest, request.name = name ∧
        saved.fingerprint = key (.request ctx request) ∧
        ∀ w' self'', World.Steps π root w w' → w'.handle = some self'' →
          self''.poisoned = false → ∀ request' : StepRequest, request'.name = name →
          request' ≠ request →
          self''.perform (.step ctx request') =
            .ret (.error (.conflict "operation step reused with different inputs"), self'')) := by
  obtain ⟨s, handle⟩ := w
  obtain rfl : handle = some self := hw
  refine ⟨fun ctx request answer self' s' hr hd w' self'' hs hw' hp => ?_,
    fun hinj ctx name saved hl => ?_⟩
  · have hw₁ : World.Reachable π root ⟨s', some self'⟩ :=
      h.steps (Relation.ReflTransGen.single (.call hr))
    have answered : (∃ e, qualify ctx = .error e ∧ answer = .error e) ∨
        qualify ctx = .ok () ∧ ∃ saved,
          self'.state.steps.lookup (key (.step ctx request.name)) = some saved ∧
          answer = replayed saved (key (.request ctx request)) request := by
      by_cases hd' : self.poisoned = true
      · rw [perform_poisoned hd', Runs.ret_iff] at hr
        obtain ⟨hr, -⟩ := hr
        cases hr
        left
        have := hd _ rfl
        unfold Request.refusal Request.check at this ⊢
        cases hq : qualify ctx with
        | error e => exact ⟨e, rfl, by simp [hq]⟩
        | ok => simp [hq, HsmError.Definite] at this
      · have hd' : self.poisoned = false := by simpa using hd'
        have hk := h.filed
        obtain rfl := hk.root_eq self rfl
        exact (perform_runs hd' (hk.safe self rfl hd') hr).answered hd
    rcases answered with ⟨e, hq, rfl⟩ | ⟨hq, saved, hl, rfl⟩
    · exact perform_unqualified hq
    · have := ((hw₁.extends rfl hs).cached self'' hw').2.step _ _ hl
      exact perform_replayed hp hq this
  · obtain ⟨ctx', request, hq, hk, hf⟩ := h.filed.cached self rfl _ _ hl
    have hstep := hinj hk
    simp only [Keyed.step.injEq] at hstep
    obtain ⟨rfl, rfl⟩ := hstep
    refine ⟨request, rfl, hf, fun w' self'' hs hw' hp request' hn hne => ?_⟩
    have := ((h.extends rfl hs).cached self'' hw').2.step _ _ hl
    rw [perform_replayed hp hq (hn ▸ this), replayed_conflict]
    rw [hf]
    intro heq
    have := hinj heq
    simp only [Keyed.request.injEq] at this
    exact hne this.2.symm

end

end

open Reference in
/-- The prepared recall of the example run refuses every other one of its context. -/
theorem step_replayed_recalling : ∃ w self, recalling = some w ∧ w.handle = some self ∧
    ∃ request : StepRequest, request.name = .prepareRecall ∧
      ∀ w' self', World.Steps anything ["s"] w w' → w'.handle = some self' →
        self'.poisoned = false → ∀ request' : StepRequest, request'.name = .prepareRecall →
        request' ≠ request → self'.perform (.step ⟨"recall", 1, 1⟩ request') =
          .ret (.error (.conflict "operation step reused with different inputs"), self') := by
  obtain ⟨w, self, hw, hs, h, -, -, -, hl⟩ := recalling_reachable
  obtain ⟨saved, hl⟩ := Option.isSome_iff_exists.mp hl
  obtain ⟨request, hn, -, hr⟩ := (step_replayed h hs).2 key_injective _ _ _ hl
  exact ⟨w, self, hw, hs, request, hn, hr⟩

end HsmRs
