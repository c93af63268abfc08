import HsmRs.Storage.Ownership
import HsmRs.Storage.Replay

/-! # What prepare calls have returned

The names of views and of private layouts have been handed out. A view or target that a
prepare call has returned is the only one that is ever stored under its name.
-/

namespace HsmRs

open LocalStorage

section

variable {κ : Type} [DecidableEq κ] [KeyHash κ] [Crates] {root : Dir} {st next : State κ}
  {π : Policy (FileName κ) (Content κ)} {i i' : String → Bool}

/-- The stored views and recalls have names that were handed out, and what is recorded as
returned is what is stored under its name, if anything is. -/
structure State.Entered (i : String → Bool) (st : State κ) : Prop where
  views : ∀ u o, st.views.lookup u = some o → i u = true
  recalls : ∀ u o, st.recalls.lookup u = some o → i u = true
  view : ∀ k f v, st.steps.lookup k = some ⟨f, .ok (.view v)⟩ →
    i v.viewId = true ∧ ∀ o, st.views.lookup v.viewId = some o → o.view = v
  target : ∀ k f t, st.steps.lookup k = some ⟨f, .ok (.target t)⟩ →
    i t.layoutId = true ∧ ∀ o, st.recalls.lookup t.layoutId = some o → o.target = t

namespace State.Entered

omit [KeyHash κ] [Crates] in
theorem mono (h : st.Entered i) (hi : ∀ u, i u = true → i' u = true) : st.Entered i' :=
  ⟨fun u o ho => hi u (h.views u o ho), fun u o ho => hi u (h.recalls u o ho),
    fun k f v hv => (h.view k f v hv).imp_left (hi _), fun k f t ht =>
      (h.target k f t ht).imp_left (hi _)⟩

omit [KeyHash κ] [Crates] in
theorem dropped (h : st.Entered i) (hs : next.steps = st.steps)
    (hv : ∀ u o, next.views.lookup u = some o → st.views.lookup u = some o)
    (hr : ∀ u o, next.recalls.lookup u = some o → st.recalls.lookup u = some o) :
    next.Entered i := by
  refine ⟨fun u o ho => h.views u o (hv u o ho), fun u o ho => h.recalls u o (hr u o ho), ?_, ?_⟩
  · intro k f v hk
    rw [hs] at hk
    exact (h.view k f v hk).imp_right fun ho o hl => ho o (hv _ o hl)
  · intro k f t hk
    rw [hs] at hk
    exact (h.target k f t hk).imp_right fun ho o hl => ho o (hr _ o hl)

omit [KeyHash κ] [Crates] in
theorem inserted {α : Type} {m : Table String α} {u v : String} {a o : α} (hu : u ≠ v)
    (h : (m.insert u a).lookup v = some o) : m.lookup v = some o := by
  rwa [Table.lookup_insert, if_neg (Ne.symm hu)] at h

omit [KeyHash κ] in
theorem effect {ctx : OperationContext} {request : StepRequest} {value : StepValue}
    (h : st.Entered i) (hπ : π.Fresh) (hi : ∀ u, i u = true → i' u = true)
    (he : Effect root (Given π i i') st ctx request value next) :
    next.Entered i' ∧ (∀ v, value = .view v →
        i' v.viewId = true ∧ ∀ o, next.views.lookup v.viewId = some o → o.view = v) ∧
      ∀ t, value = .target t →
        i' t.layoutId = true ∧ ∀ o, next.recalls.lookup t.layoutId = some o → o.target = t := by
  have erased : ∀ {α : Type} {m : Table String α} {u v : String} {o : α},
      (m.erase u).lookup v = some o → m.lookup v = some o := by
    intro α m u v o ho
    rw [Table.lookup_erase] at ho
    split at ho
    · cases ho
    · exact ho
  have h' := h.mono hi
  have new : ∀ {u v : String}, Given π i i' u → i v = true → u ≠ v := by
    rintro u _ hu hv rfl
    simp [hu.unissued hπ] at hv
  cases he with
  | @prepareArchive view _ _ _ _ hu =>
    refine ⟨⟨?_, h'.recalls, ?_, h'.target⟩, ?_, nofun⟩
    · intro v o ho
      rw [Table.lookup_insert] at ho
      split at ho
      · rename_i hv
        exact hv ▸ hu.2
      · exact h'.views v o ho
    · intro k f v hk
      obtain ⟨hv, ho⟩ := h.view k f v hk
      exact ⟨hi _ hv, fun o hl => ho o (inserted (new hu hv) hl)⟩
    · rintro _ ⟨⟩
      refine ⟨hu.2, fun o ho => ?_⟩
      rw [Finmap.lookup_insert] at ho
      cases ho
      rfl
  | @prepareRecall e anchor layout _ _ _ hu =>
    refine ⟨⟨h'.views, ?_, h'.view, ?_⟩, nofun, ?_⟩
    · intro v o ho
      rw [Table.lookup_insert] at ho
      split at ho
      · rename_i hv
        exact hv ▸ hu.2
      · exact h'.recalls v o ho
    · intro k f t hk
      obtain ⟨ht, ho⟩ := h.target k f t hk
      exact ⟨hi _ ht, fun o hl => ho o (inserted (new hu ht) hl)⟩
    · rintro _ ⟨⟩
      refine ⟨hu.2, fun o ho => ?_⟩
      rw [Finmap.lookup_insert] at ho
      cases ho
      rfl
  | commitArchive => exact ⟨h'.dropped rfl (fun _ _ => erased) fun _ _ h => h, nofun, nofun⟩
  | release => exact ⟨h'.dropped rfl (fun _ _ h => h) fun _ _ h => h, nofun, nofun⟩
  | commitRecall => exact ⟨h'.dropped rfl (fun _ _ h => h) fun _ _ => erased, nofun, nofun⟩

omit [KeyHash κ] [Crates] in
theorem record {k : κ} {f : κ} {result : Except SavedFailure StepValue} (h : st.Entered i)
    (hv : ∀ v, result = .ok (.view v) →
      i v.viewId = true ∧ ∀ o, st.views.lookup v.viewId = some o → o.view = v)
    (ht : ∀ t, result = .ok (.target t) →
      i t.layoutId = true ∧ ∀ o, st.recalls.lookup t.layoutId = some o → o.target = t) :
    (st.record k ⟨f, result⟩).Entered i := by
  refine ⟨h.views, h.recalls, ?_, ?_⟩
  · intro k' f' v hk
    simp only [State.record, Table.lookup_insert] at hk
    split at hk
    · cases hk
      exact hv v rfl
    · exact h.view k' f' v hk
  · intro k' f' t hk
    simp only [State.record, Table.lookup_insert] at hk
    split at hk
    · cases hk
      exact ht t rfl
    · exact h.target k' f' t hk

theorem stable (hπ : π.Fresh) : Stable π root fun i (st : State κ) => st.Entered i where
  mono hi h := h.mono hi
  call hi h hs := by
    cases hs with
    | failed => exact (h.mono hi).record nofun nofun
    | done _ _ he =>
      obtain ⟨hn, hv, ht⟩ := h.effect hπ hi he
      exact hn.record (fun v hr => hv v (by cases hr; rfl)) fun t hr => ht t (by cases hr; rfl)
    | imported => exact (h.mono hi).dropped rfl (fun _ _ h => h) fun _ _ h => h
    | collected => exact (h.mono hi).dropped rfl (fun _ _ h => h) fun _ _ h => h

end State.Entered

variable {w : World κ} {self : LocalStorage κ}

theorem World.Reachable.entered (h : w.Reachable π root) (hπ : π.Fresh) :
    w.Keeps π root fun i st => st.Entered i :=
  h.keeps (State.Entered.stable hπ) fun i a b => by
    constructor <;> intros <;> simp_all [State.new]

/-- An earlier step of the run has returned the value. -/
def World.Returned (π : Policy (FileName κ) (Content κ)) (root : Dir) (w : World κ)
    (value : StepValue) : Prop :=
  ∃ (w₀ : World κ) (self₀ self₁ : LocalStorage κ) (s₁ : Disk (FileName κ) (Content κ))
    (ctx : OperationContext) (request : StepRequest), w₀.Reachable π root ∧ w₀.handle = some self₀ ∧
    Runs (fsMachine π) (self₀.perform (.step ctx request)) w₀.disk (.ok (.value value), self₁) s₁ ∧
    World.Steps π root ⟨s₁, some self₁⟩ w

omit [KeyHash κ] [Crates] in
theorem replayed_ok {saved : SavedStep κ} {fingerprint : κ} {request : StepRequest}
    {value : StepValue} (h : replayed saved fingerprint request = .ok (.value value)) :
    saved.result = .ok value := by
  obtain ⟨f, r⟩ := saved
  have answer : ∀ {α : Type} [Recorded α] {g : α → StepValue},
      (∀ v a, Recorded.fromValue v = .ok a → g a = v) →
      (replay ⟨f, r⟩ fingerprint : HsmResult α).map (Reply.value ∘ g) = .ok (.value value) →
      r = .ok value := by
    intro α _ g hg hr
    unfold replay at hr
    split at hr
    · cases hr
    · rcases r with e | v
      · cases hr
      · dsimp only at hr
        cases hv : (Recorded.fromValue v : Except String α) with
        | error e => simp [hv, Except.mapError, Except.map] at hr
        | ok a =>
          simp only [hv, Except.mapError, Except.map, Function.comp, Except.ok.injEq,
            Reply.value.injEq] at hr
          rw [← hr, hg v a hv]
  cases request <;> refine answer ?_ h <;> intro v a hv <;> cases v <;>
    simp_all [Recorded.fromValue]

theorem World.Returned.recorded {value : StepValue} (h : w.Returned π root value)
    (hw : w.handle = some self) :
    ∃ k f, self.state.steps.lookup k = some ⟨f, .ok value⟩ := by
  obtain ⟨⟨s₀, h₀⟩, self₀, self₁, s₁, ctx, request, hr, rfl, hrun, hs⟩ := h
  have hk := hr.filed
  obtain rfl := hk.root_eq self₀ rfl
  by_cases hp : self₀.poisoned = true
  · rw [perform_poisoned hp, Runs.ret_iff] at hrun
    cases hrun.1
  have hp : self₀.poisoned = false := by simpa using hp
  have hr₁ : World.Reachable π self₀.root ⟨s₁, some self₁⟩ :=
    hr.steps (Relation.ReflTransGen.single (.call hrun))
  rcases (perform_runs hp (hk.safe self₀ rfl hp) hrun).answered nofun with
    ⟨e, -, he⟩ | ⟨-, saved, hl, ha⟩
  · cases he
  · have := ((hr₁.extends rfl hs).cached self hw).2.step _ _ hl
    refine ⟨_, saved.fingerprint, this.trans ?_⟩
    rw [← replayed_ok ha.symm]

end

end HsmRs
