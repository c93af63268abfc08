import HsmRs.Local.Thriving
import HsmRs.Storage.World

/-! # Local storage when no operation fails

A handle that serves: it is healthy, its metadata are on disk, and no data session is
active. On a machine that fails no operation its calls succeed under the conditions
they check, and it goes on serving.
-/

namespace HsmRs

variable {κ α : Type}

/-! ## Metadata -/

namespace State

variable {st next : State κ} {data : DataKey} {e : Entity} {op : String}

structure Resting (st : State κ) (data : DataKey) (e : Entity) : Prop where
  current : st.entity data = .ok e
  unviewed : ¬ st.views.Any (fun v => v.view.data = data)
  unrecalled : ¬ st.recalls.Any (fun r => r.target.data = data)

structure Unused [DecidableEq κ] [KeyHash κ] (st : State κ) (op : String) : Prop where
  completed : st.completed.lookup op = none
  steps : ∀ ctx name, ctx.operationId = op → st.steps.lookup (key (.step ctx name)) = none

theorem Unused.admits [DecidableEq κ] [KeyHash κ] {ctx : OperationContext} {action : ManagedAction}
    (h : st.Unused ctx.operationId) : st.Admits ctx data action := by
  intro old ho
  rw [h.completed] at ho
  cases ho

theorem entity_insert {v : State κ} [DecidableEq κ] (h : st.entity data = .ok e) {x : Entity}
    (hd : x.public.data = data) (hs : v.storageId = st.storageId) (hn : v.namespace = st.namespace)
    (he : v.entities = st.entities.insert data.entity.entity x) : v.entity data = .ok x := by
  obtain ⟨⟨h₁, h₂, h₃⟩, -, -⟩ := entity_eq_ok.mp h
  refine entity_eq_ok.mpr ⟨⟨h₁.trans hs.symm, h₂.trans hn.symm, h₃⟩, ?_, hd⟩
  rw [he]
  simp

section

variable [DecidableEq κ] [KeyHash κ] (st : State κ) (ctx : OperationContext)

def stepped (request : StepRequest) (value : StepValue) : State κ :=
  st.record (key (.step ctx request.name)) ⟨key (.request ctx request), .ok value⟩

def pinning (view : DataView) : State κ :=
  State.stepped { st with views := st.views.insert view.viewId ⟨ctx, view⟩ } ctx
    (.prepareArchive view.data) (.view view)

def attaching (view : DataView) (receipt : ArchiveReceipt) (e : Entity) : State κ :=
  State.stepped { st with
    entities := st.entities.insert view.data.entity.entity
      { e with «public» := e.public.attached receipt }
    views := st.views.erase view.viewId
    completed := st.completed.insert ctx.operationId
      ⟨ctx, view.data, .archive receipt.key, e.public.attached receipt⟩ } ctx
    (.commitArchive view receipt) (.state (e.public.attached receipt))

def detaching (e : Entity) (layout : String) : State κ :=
  State.stepped { st with
    entities := st.entities.insert e.public.data.entity.entity ⟨e.public.released, none⟩
    gc := st.gc ++ [layout]
    completed := st.completed.insert ctx.operationId
      ⟨ctx, e.public.data, .release, e.public.released⟩ } ctx (.release e.public)
    (.state e.public.released)

def reserving (e : Entity) (anchor : ArchiveReceipt) (target : RecallTarget) : State κ :=
  State.stepped { st with recalls := st.recalls.insert target.layoutId ⟨ctx, target, anchor⟩ } ctx
    (.prepareRecall e.public anchor) (.target target)

def publishing (e : Entity) (target : RecallTarget) (evidence : TransferEvidence) : State κ :=
  State.stepped { st with
    entities := st.entities.insert target.data.entity.entity
      ⟨e.public.recalled, some target.layoutId⟩
    recalls := st.recalls.erase target.layoutId
    completed := st.completed.insert ctx.operationId
      ⟨ctx, target.data, .«recall» target.archive, e.public.recalled⟩ } ctx
    (.commitRecall target evidence) (.state e.public.recalled)

end

section

variable [DecidableEq κ] [KeyHash κ] (inj : Function.Injective (key : Keyed → κ))
include inj

theorem Unused.record {ctx : OperationContext} {name : StepName} {saved : SavedStep κ}
    (h : st.Unused op) (hne : ctx.operationId ≠ op)
    (completed : next.completed.lookup op = st.completed.lookup op)
    (steps : next.steps = st.steps) :
    (next.record (key (.step ctx name)) saved).Unused op where
  completed := completed.trans h.completed
  steps ctx' name' ho := by
    rw [State.record, Table.lookup_insert, if_neg, steps]
    · exact h.steps ctx' name' ho
    · intro he
      have := inj he
      simp only [Keyed.step.injEq] at this
      exact hne (this.1 ▸ ho)

end

end State

namespace LocalStorage

variable {self self' : LocalStorage κ} {s s' s'' : Disk (FileName κ) (Content κ)} {next : State κ}

/-- A handle in working order, whose root has a place for layouts. -/
structure Serving (store : LocalStorage κ) (s : Disk (FileName κ) (Content κ)) : Prop where
  healthy : store.poisoned = false
  safe : s.Safe store.root .state (.state store.state)
  layouts : s.dir (layoutsDir store.root) = true
  idle : ∀ d, s.locked d .transferLock = false

theorem Serving.dir (h : self.Serving s) : s.dir self.root = true :=
  Disk.dir_of_lookup (n := .state) (by simp [h.safe.1])

theorem Serving.frame {K : Dir → FileName κ → Prop} (h : self.Serving s) (hf : Frame K s s')
    (state : K self.root .state) (layouts : K (layoutsDir self.root) .backendId)
    (idle : s'.locked = s.locked) : self.Serving s' :=
  ⟨h.healthy, h.safe.frame hf state, hf.dir _ _ layouts h.layouts, fun d => idle ▸ h.idle d⟩

/-- What calls leave alone: other roots, and the payloads of the layouts that are there. -/
def Spared (root : Dir) (s : Disk (FileName κ) (Content κ)) (d : Dir) (n : FileName κ) : Prop :=
  Old s d n ∧ (n = .data ∨ ¬ root <:+ d)

theorem Spared.named {root d : Dir} {n : FileName κ} (h : Spared root s d n) : Named d n := h.1.1

theorem Spared.step {K : Dir → FileName κ → Prop} {root d : Dir} {n : FileName κ}
    (h : Spared root s d n) (hf : Frame K s s') (hk : K d n) : Spared root s' d n :=
  ⟨⟨h.1.1, hf.dir d n hk h.1.2⟩, h.2⟩

theorem Spared.but_state {root d : Dir} {n : FileName κ} (h : Spared root s d n) :
    NamedBut root .state d n := by
  refine ⟨h.named, ?_⟩
  rintro ⟨rfl, rfl⟩
  rcases h.2 with hn | hn
  · cases hn
  · exact hn (List.suffix_refl _)

structure Turned (store : LocalStorage κ) (next : State κ) (s s' : Disk (FileName κ) (Content κ))
    (store' : LocalStorage κ) : Prop where
  handle : store' = { store with state := next }
  serving : store'.Serving s'
  spares : Frame (Spared store.root s) s s'

variable [DecidableEq κ] {π : Policy (FileName κ) (Content κ)} {ctx : OperationContext}

section

variable (smooth : π.Smooth)
include smooth

theorem adopt_endures {C : Disk (FileName κ) (Content κ) → Prop} {answer : HsmResult α}
    (cut : ∀ s'', Frame Named s' s'' ∨ Placed self.root .state (.state next) s' s'' → C s'')
    (h : self.Serving s') (hf : Frame (Spared self.root s) s s') :
    (self.adopt next answer).wp (fsMachine π) C (fun x s'' => x.1 = answer ∧
      self.Turned next s s'' x.2 ∧ Frame (NamedBut self.root .state) s' s'') s' := by
  refine wp_adopt cut (fun s'' hp hs hk => ⟨rfl, ⟨rfl, ?_, ?_⟩, hp.others⟩)
    fun e s'' _ _ hr => ?_
  · refine ⟨h.healthy, hs, ?_, fun d => hk ▸ h.idle d⟩
    exact hp.others.dir _ .data ⟨id, fun h => by cases h.2⟩ h.layouts
  · exact hf.trans (hp.others.mono fun d n hd => hd.but_state)
  · rcases hr with hr | hr
    · exact (hr smooth).elim
    · rw [h.dir] at hr
      cases hr

theorem adopt_succeeds {answer : HsmResult α} (h : self.Serving s')
    (hf : Frame (Spared self.root s) s s') :
    (self.adopt next answer).wp (fsMachine π) (fun _ => True) (fun x s'' => x.1 = answer ∧
      self.Turned next s s'' x.2 ∧ Frame (NamedBut self.root .state) s' s'') s' :=
  adopt_endures smooth (fun _ _ => trivial) h hf

/-- A step that is new to the operation comes to what its effect comes to. -/
theorem step_endures [KeyHash κ] [Recorded α] {C : Disk (FileName κ) (Content κ) → Prop}
    {request : StepRequest} {effect : State κ → Io κ (α × State κ)}
    {R : α → State κ → Disk (FileName κ) (Content κ) → Prop}
    {Q : α × LocalStorage κ → Disk (FileName κ) (Content κ) → Prop} (h : self.Serving s)
    (qualified : qualify ctx = .ok ())
    (new : self.state.steps.lookup (key (.step ctx request.name)) = none)
    (goes : Endures (fsMachine π) C (effect self.state) s fun x s' =>
      self.Serving s' ∧ Frame (Spared self.root s) s s' ∧ R x.1 x.2 s')
    (cut : ∀ value next s₁ s', R value next s₁ → C s₁ → Frame Named s₁ s' ∨
      Placed self.root .state (.state (next.stepped ctx request (Recorded.toValue value))) s₁ s' →
      C s')
    (done : ∀ value next self' s₁ s', R value next s₁ → Frame (NamedBut self.root .state) s₁ s' →
      self.Turned (next.stepped ctx request (Recorded.toValue value)) s s' self' →
      Q (value, self') s') :
    Endures (fsMachine π) C (tried (self.step ctx request effect)) s Q := by
  rw [endures_tried]
  refine wp_step h.healthy goes.now (fun e he => ?_) (fun saved _ hl => ?_) fun _ _ => ?_
  · rw [qualified] at he
    cases he
  · rw [new] at hl
    cases hl
  · refine Prog.wp_mono goes (fun _ h => h) ?_
    rintro _ s₁ now ⟨⟨value, next⟩, rfl, hs, hf, hr⟩
    refine Prog.wp_mono (adopt_endures smooth (fun s' hc => cut value next s₁ s' hr now hc) hs hf)
      (fun _ h => h) ?_
    rintro ⟨_, self'⟩ s' - ⟨rfl, ht, hn⟩
    exact ⟨value, rfl, done value next self' s₁ s' hr hn ht⟩

omit smooth in
/-- A step that is on record is answered from there. -/
theorem step_replays [KeyHash κ] [Recorded α] {C : Disk (FileName κ) (Content κ) → Prop}
    {request : StepRequest} {effect : State κ → Io κ (α × State κ)} {value : α} (h : self.Serving s)
    (qualified : qualify ctx = .ok ()) (now : C s)
    (saved : self.state.steps.lookup (key (.step ctx request.name)) =
      some ⟨key (.request ctx request), .ok (Recorded.toValue value)⟩) :
    Endures (fsMachine π) C (tried (self.step ctx request effect)) s fun x s' =>
      x = (value, self) ∧ s' = s := by
  rw [endures_tried]
  refine wp_step h.healthy now (fun e he => ?_) (fun old _ hl => ?_) fun _ hn => ?_
  · rw [qualified] at he
    cases he
  · rw [saved] at hl
    cases hl
    exact ⟨value, by simp [replay, Recorded.fromValue_toValue, Except.mapError], rfl, rfl⟩
  · rw [saved] at hn
    cases hn

variable [Crates]

/-! ## Import and garbage collection -/

theorem importLayout_succeeds {root : Dir} {bytes : Bytes} (hd : s.dir (layoutsDir root) = true) :
    Succeeds (fsMachine π) (importLayout root bytes : Io κ _) s fun r s' =>
      ∃ layout, r = (layout, bytes.length, digestOf bytes) ∧
        s'.Holds (layoutDir root layout) bytes ∧ Frame (Old s) s s' ∧ s'.locked = s.locked := by
  refine .bind ((newLayout_succeeds smooth hd).mono ?_)
  rintro u s₁ ⟨-, made, f₁, k₁⟩
  -- from here on only the new directory is written
  have late : ∀ {s'}, Frame (fun d n => Named d n ∧ d ≠ layoutDir root u) s₁ s' →
      Frame (Old s) s s' := fun hf => by
    refine (f₁.mono fun _ _ h => h.1).trans (hf.mono fun d n h => ⟨h.1, ?_⟩)
    rintro rfl
    have := made.absent
    rw [show s.dir (u :: layoutsDir root) = true from h.2] at this
    cases this
  have hd₁ : s₁.dir (layoutDir root u) = true := made.dir
  refine .bind ((createNew_succeeds smooth made.dir (made.empty _)).mono ?_)
  rintro - s₂ rfl
  have l₂ : (s₁.put (layoutDir root u) .data (some ⟨.bytes bytes, false⟩)).lookup
      (layoutDir root u) .data = some ⟨.bytes bytes, false⟩ := by simp [hd₁]
  refine .bind ((syncFile_succeeds smooth l₂).mono ?_)
  rintro - s₃ rfl
  have l₃ : ((s₁.put (layoutDir root u) .data (some ⟨.bytes bytes, false⟩)).put (layoutDir root u)
      .data (some ⟨.bytes bytes, true⟩)).lookup (layoutDir root u) .data =
      some ⟨.bytes bytes, true⟩ := by simp [hd₁]
  have f₃ : Frame (fun d n => Named d n ∧ d ≠ layoutDir root u) s₁
      ((s₁.put (layoutDir root u) .data (some ⟨.bytes bytes, false⟩)).put (layoutDir root u) .data
        (some ⟨.bytes bytes, true⟩)) :=
    (Disk.frame_put fun h => h.2 rfl).trans (Disk.frame_put fun h => h.2 rfl)
  have hd₃ : ((s₁.put (layoutDir root u) .data (some ⟨.bytes bytes, false⟩)).put (layoutDir root u)
      .data (some ⟨.bytes bytes, true⟩)).dir (layoutDir root u) = true := hd₁
  have k₃ : ((s₁.put (layoutDir root u) .data (some ⟨.bytes bytes, false⟩)).put (layoutDir root u)
      .data (some ⟨.bytes bytes, true⟩)).locked = s.locked := k₁
  generalize (s₁.put (layoutDir root u) .data (some ⟨.bytes bytes, false⟩)).put (layoutDir root u)
    .data (some ⟨.bytes bytes, true⟩) = s₃ at l₃ f₃ hd₃ k₃
  refine .bind ((syncDir_succeeds smooth hd₃).mono ?_)
  rintro - s₄ rfl
  have f₄ := f₃.trans (Disk.flushed_flush s₃ (layoutDir root u)).frame
  have h₄ : (s₃.flush (layoutDir root u)).Holds (layoutDir root u) bytes := ⟨true, l₃⟩
  refine .bind ((digestFile_succeeds smooth h₄).mono ?_)
  rintro _ _ ⟨rfl, rfl⟩
  refine .bind ((writeJson_succeeds (s := s₃.flush (layoutDir root u)) smooth id hd₃).mono ?_)
  rintro - s₅ ⟨placed, -, k₅⟩
  refine .pure ⟨u, rfl, h₄.frame placed.others ⟨id, by simp⟩, late (f₄.trans ?_), k₅.trans k₃⟩
  exact placed.others.mono fun d n h => ⟨h.1, fun h' => h.2 h'.1⟩

theorem import_succeeds {entityId : String} {bytes : Bytes} (h : self.Serving s)
    (named : entityId ≠ "") (new : entityId ∉ self.state.entities) :
    Succeeds (fsMachine π) (tried (self.import entityId bytes)) s fun x s' => ∃ layout,
      x.1 = (imported self.state entityId layout bytes.length (digestOf bytes)).public ∧
      s'.Holds (layoutDir self.root layout) bytes ∧
      self.Turned { self.state with
        entities := self.state.entities.insert entityId
          (imported self.state entityId layout bytes.length (digestOf bytes)) } s s' x.2 := by
  rw [succeeds_tried]
  unfold LocalStorage.import
  rw [if_neg named]
  simp only [healthy_eq_ok.mpr h.healthy]
  rw [if_neg new, Prog.wp_bind]
  refine Prog.wp_mono (importLayout_succeeds smooth h.layouts) (fun _ h => h) ?_
  rintro _ s₁ - ⟨_, rfl, layout, rfl, hb, hf, hk⟩
  have serving : self.Serving s₁ := h.frame hf ⟨id, h.dir⟩ ⟨id, h.layouts⟩ hk
  refine Prog.wp_mono (adopt_succeeds smooth serving (hf.mono fun _ _ hd => hd.1))
    (fun _ h => h) ?_
  rintro ⟨_, self'⟩ s' - ⟨rfl, ht, hn⟩
  exact ⟨_, rfl, layout, rfl, hb.frame hn ⟨id, fun h => layoutDir_ne_root h.1⟩, ht⟩

omit [Crates] in
theorem sweep_succeeds {root : Dir} {layouts : List String}
    (idle : ∀ d, s.locked d .transferLock = false) :
    Succeeds (fsMachine π) (sweep root layouts : Io κ Nat) s fun _ s' =>
      ∀ d, s'.locked d .transferLock = false := by
  induction layouts generalizing s with
  | nil => exact .pure idle
  | cons layout rest ih =>
    have last : ∀ {s₁ : Disk (FileName κ) (Content κ)}, (∀ d, s₁.locked d .transferLock = false) →
        Succeeds (fsMachine π) (do return (← sweep root rest) + 1 : Io κ Nat) s₁ fun _ s' =>
          ∀ d, s'.locked d .transferLock = false :=
      fun hi => .bind ((ih hi).mono fun _ _ h => .pure h)
    refine .bind ((existsDir_succeeds (d := layoutDir root layout)).mono ?_)
    rintro b s₁ ⟨rfl, rfl⟩
    cases hb : s₁.dir (layoutDir root layout) with
    | false => exact last idle
    | true =>
      refine .bind (withTransferLock_succeeds smooth hb (idle _)
        ((removeDirAll_succeeds (s := s₁.setLock (layoutDir root layout) .transferLock true) smooth
          hb).mono ?_))
      rintro - s₂ rfl
      have restored : (((s₁.setLock (layoutDir root layout) .transferLock true).prune
          (layoutDir root layout)).setLock (layoutDir root layout) .transferLock false).locked =
          s₁.locked := setLock_restore (idle _) rfl
      exact last fun d => restored ▸ idle d

omit [Crates] in
theorem collectGarbage_succeeds (h : self.Serving s) :
    Succeeds (fsMachine π) (tried self.collectGarbage) s fun x s' =>
      x.2 = { self with state := { self.state with gc := [] } } ∧ x.2.Serving s' := by
  rw [succeeds_tried]
  unfold LocalStorage.collectGarbage
  simp only [healthy_eq_ok.mpr h.healthy]
  rw [Prog.wp_bind]
  have swept : Succeeds (fsMachine π) (do
      let count ← sweep self.root self.state.gc
      syncDir (layoutsDir self.root)
      return count : Io κ Nat) s fun _ s' => self.Serving s' := by
    have spares : (sweep self.root self.state.gc : Io κ Nat).run.Within
        (FsOp.Spares fun d n => Named d n ∧ (d = self.root ∨ d = layoutsDir self.root)) := by
      refine spares_sweep fun layout _ d n hd hl => ?_
      have := hl.length_le
      rcases hd.2 with rfl | rfl <;> simp only [layoutDir, layoutsDir, List.length_cons] at this <;>
        omega
    refine .bind ((sweep_succeeds smooth h.idle).framed spares |>.mono ?_)
    rintro n s₁ ⟨idle, hf⟩
    have serving : self.Serving s₁ := ⟨h.healthy, h.safe.frame hf ⟨id, .inl rfl⟩,
      hf.dir _ .data ⟨id, .inr rfl⟩ h.layouts, idle⟩
    refine .bind ((syncDir_succeeds smooth serving.layouts).mono ?_)
    rintro - s₂ rfl
    exact .pure (serving.frame (Disk.flushed_flush _ _).frame (K := Named) id id rfl)
  refine Prog.wp_mono swept (fun _ h => h) ?_
  rintro _ s₁ - ⟨n, rfl, serving⟩
  refine Prog.wp_mono (adopt_succeeds (s := s₁) smooth serving (.refl _)) (fun _ h => h) ?_
  rintro ⟨_, self'⟩ s' - ⟨rfl, ht, -⟩
  exact ⟨n, rfl, ht.handle, ht.serving⟩

/-! ## The protected steps -/

section

variable [KeyHash κ] {data : DataKey} {e : Entity} {layout : String}
  {C : Disk (FileName κ) (Content κ) → Prop}

/-- The view that storage makes of the published layout. -/
structure Shows (store : LocalStorage κ) (e : Entity) (layout : String)
    (view : DataView) : Prop where
  data : view.data = e.public.data
  length : view.length = e.public.length
  digest : view.digest = e.public.digest
  source : view.source = endpoint (layoutDir store.root layout)

theorem prepareArchive_endures (steady : ∀ s₁ s₂, C s₁ → Frame Named s₁ s₂ → C s₂) (now : C s)
    (written : ∀ view s₁ s', self.Shows e layout view → C s₁ → Frame Named s s₁ →
      Placed self.root .state (.state (self.state.pinning ctx view)) s₁ s' → C s')
    (h : self.Serving s) (qualified : qualify ctx = .ok ())
    (unused : self.state.Unused ctx.operationId) (rest : self.state.Resting data e)
    (published : e.published = some layout) :
    Endures (fsMachine π) C (tried (self.prepareArchive ctx data)) s fun x s' =>
      self.Shows e layout x.1 ∧ self.Turned (self.state.pinning ctx x.1) s s' x.2 := by
  obtain ⟨-, -, rfl⟩ := State.entity_eq_ok.mp rest.current
  refine step_endures (R := fun view next s' => self.Shows e layout view ∧ Frame Named s s' ∧
      next = { self.state with views := self.state.views.insert view.viewId ⟨ctx, view⟩ })
    smooth h qualified (unused.steps ctx _ rfl) ?_ ?_ ?_
  · refine wp_prepareArchiveEffect (fun s' hf => steady s s' now hf) ?_ fun e' hn => ?_
    · intro e' layout' viewId he hl _ _
      rw [rest.current] at he
      cases he
      rw [published] at hl
      cases hl
      exact ⟨_, rfl, h.frame (K := Named) frame_issue id id rfl, frame_issue, ⟨rfl, rfl, rfl, rfl⟩,
        frame_issue, rfl⟩
    · exact (hn ⟨e, layout, rest.current, published, rest.unviewed⟩).elim
  · rintro view _ s₁ s' ⟨shows, hf, rfl⟩ now₁ (h' | h')
    · exact steady s₁ s' now₁ h'
    · refine written view s₁ s' shows now₁ hf ?_
      rw [State.pinning, shows.data]
      exact h'
  · rintro view _ self' s₁ s' ⟨shows, -, rfl⟩ - ht
    refine ⟨shows, ?_⟩
    rw [State.pinning, shows.data]
    exact ht

theorem commitArchive_endures {view : DataView} {receipt : ArchiveReceipt}
    (steady : ∀ s₁ s₂, C s₁ → Frame Named s₁ s₂ → C s₂) (now : C s)
    (written : ∀ s₁ s', C s₁ → Frame Named s s₁ →
      Placed self.root .state (.state (self.state.attaching ctx view receipt e)) s₁ s' → C s')
    (h : self.Serving s) (qualified : qualify ctx = .ok ())
    (new : self.state.steps.lookup (key (.step ctx .commitArchive)) = none)
    (pinned : self.state.views.lookup view.viewId = some ⟨ctx, view⟩)
    (current : self.state.entity view.data = .ok e) (binds : receipt.Binds view)
    (free : ∀ a ∈ e.public.anchors, a.key = receipt.key → a = receipt)
    (admits : self.state.Admits ctx view.data (.archive receipt.key))
    (source : view.source = endpoint (layoutDir self.root layout))
    (there : s.dir (layoutDir self.root layout) = true) :
    Endures (fsMachine π) C (tried (self.commitArchive ctx view receipt)) s fun x s' =>
      x.1 = e.public.attached receipt ∧
        self.Turned (self.state.attaching ctx view receipt e) s s' x.2 := by
  have attach := State.attachAnchor_eq_ok.mpr ⟨e, current, binds, free, admits, rfl, rfl⟩
  refine step_endures (R := fun value next s' => Frame Named s s' ∧ .ok (value, next) =
      self.state.attachAnchor ctx view receipt) smooth h qualified new ?_ ?_ ?_
  · refine wp_commitArchiveEffect (fun s' hf => steady s s' now hf) ?_ fun e' s' _ hn => ?_
    · intro r s' _ hr hf hk
      exact ⟨r, rfl, h.frame hf id id hk, hf.mono fun _ _ hd => hd.named, hf, hr.symm⟩
    · refine (hn ⟨smooth, pinned, ⟨_, attach⟩, ?_⟩).elim
      exact ⟨_, source ▸ decodeEndpoint_endpoint _, there, h.idle _⟩
  · rintro value next s₁ s' ⟨hf, hr⟩ now₁ (h' | h')
    · exact steady s₁ s' now₁ h'
    · rw [attach] at hr
      cases hr
      exact written s₁ s' now₁ hf h'
  · rintro value next self' s₁ s' ⟨-, hr⟩ _ ht
    rw [attach] at hr
    cases hr
    exact ⟨rfl, ht⟩

omit [Crates] in
theorem release_succeeds (h : self.Serving s) (qualified : qualify ctx = .ok ())
    (unused : self.state.Unused ctx.operationId) (rest : self.state.Resting e.public.data e)
    (anchored : e.public.anchors ≠ []) (published : e.published = some layout)
    (there : s.dir (layoutDir self.root layout) = true) :
    Succeeds (fsMachine π) (tried (self.release ctx e.public)) s fun x s' =>
      x.1 = e.public.released ∧
        self.Turned (self.state.detaching ctx e layout) s s' x.2 := by
  have detach : self.state.detach ctx e.public layout = .ok (e.public.released, _) :=
    State.detach_eq_ok.mpr ⟨e, (State.entity_eq_ok.mp rest.current).2.1, unused.admits, rfl, rfl⟩
  refine step_endures (C := fun _ => True) (R := fun value next _ => .ok (value, next) =
      self.state.detach ctx e.public layout) smooth h qualified (unused.steps ctx _ rfl) ?_
      (fun _ _ _ _ _ _ _ => trivial) ?_
  · refine Succeeds.check
      (State.releasable_eq_ok.mpr ⟨e, rest.current, rfl, anchored, rest.unviewed,
      rest.unrecalled, published⟩) (withTransferLock_succeeds smooth there (h.idle _) ?_)
    refine .of_ok detach ⟨h.frame (K := Named) (frame_lock.trans frame_lock) id id ?_,
      frame_lock.trans frame_lock, detach.symm⟩
    exact setLock_restore (h.idle _) rfl
  · intro value next self' s₁ s' hr _ ht
    rw [detach] at hr
    cases hr
    exact ⟨rfl, ht⟩

def into (store : LocalStorage κ) (e : Entity) (anchor : ArchiveReceipt) (layout : String) :
    RecallTarget :=
  ⟨e.public.data, layout, anchor.key, endpoint (layoutDir store.root layout)⟩

theorem prepareRecall_endures {anchor : ArchiveReceipt}
    (steady : ∀ s₁ s₂, C s₁ → Frame Named s₁ s₂ → C s₂) (now : C s)
    (written : ∀ layout s₁ s', s₁.dir (layoutDir self.root layout) = true →
      s₁.lookup (layoutDir self.root layout) .sealed = none → C s₁ → Frame Named s s₁ →
      Placed self.root .state
        (.state (self.state.reserving ctx e anchor (self.into e anchor layout))) s₁ s' → C s')
    (h : self.Serving s) (qualified : qualify ctx = .ok ())
    (unused : self.state.Unused ctx.operationId) (rest : self.state.Resting e.public.data e)
    (published : e.published = none) (anchored : anchor ∈ e.public.anchors) :
    Endures (fsMachine π) C (tried (self.prepareRecall ctx e.public anchor)) s fun x s' =>
      ∃ layout, x.1 = self.into e anchor layout ∧
        s'.dir (layoutDir self.root layout) = true ∧
        s'.lookup (layoutDir self.root layout) .sealed = none ∧
        self.Turned (self.state.reserving ctx e anchor (self.into e anchor layout)) s s' x.2 := by
  refine step_endures (R := fun target next s' => ∃ layout, target = self.into e anchor layout ∧
      next = { self.state with recalls := self.state.recalls.insert layout ⟨ctx, target, anchor⟩ } ∧
      s'.dir (layoutDir self.root layout) = true ∧
      s'.lookup (layoutDir self.root layout) .sealed = none ∧ Frame Named s s')
    smooth h qualified (unused.steps ctx _ rfl) ?_ ?_ ?_
  · refine wp_prepareRecallEffect (fun s' hf => steady s s' now hf) ?_ fun e' s' _ hn => ?_
    · intro layout s' _ _ made hf hk
      exact ⟨_, rfl, h.frame hf id id hk, hf.mono fun _ _ hd => hd.named, layout, rfl, rfl,
        made.dir, made.empty _, hf⟩
    · exact (hn ⟨smooth, State.recallable_eq_ok.mpr ⟨e, rest.current, rfl, published, anchored,
        rest.unrecalled⟩, h.layouts⟩).elim
  · rintro _ _ s₁ s' ⟨layout, rfl, rfl, hd, hn, hf⟩ now₁ (h' | h')
    · exact steady s₁ s' now₁ h'
    · exact written layout s₁ s' hd hn now₁ hf h'
  · rintro _ _ self' s₁ s' ⟨layout, rfl, rfl, hd, hn, -⟩ hf ht
    exact ⟨layout, rfl, hf.dir _ .data ⟨id, fun h => by cases h.2⟩ hd,
      hf.absent ⟨id, fun h => by cases h.2⟩ hn, ht⟩

theorem commitRecall_endures {target : RecallTarget} {anchor : ArchiveReceipt} {b : Bytes}
    (steady : ∀ s₁ s₂, C s₁ → Frame Named s₁ s₂ → C s₂) (now : C s)
    (marked : ∀ s₁, Placed (layoutDir self.root target.layoutId) .sealed
      (.seal (.recalled target.data)) s s₁ → C s₁)
    (written : ∀ s₁ s', C s₁ → Placed (layoutDir self.root target.layoutId) .sealed
      (.seal (.recalled target.data)) s s₁ → Placed self.root .state
        (.state (self.state.publishing ctx e target ⟨b.length, digestOf b⟩)) s₁ s' → C s')
    (h : self.Serving s) (qualified : qualify ctx = .ok ())
    (new : self.state.steps.lookup (key (.step ctx .commitRecall)) = none)
    (owner : self.state.recalls.lookup target.layoutId = some ⟨ctx, target, anchor⟩)
    (current : self.state.entity target.data = .ok e) (published : e.published = none)
    (anchored : anchor ∈ e.public.anchors)
    (admits : self.state.Admits ctx target.data (.«recall» target.archive))
    (destination : target.destination = endpoint (layoutDir self.root target.layoutId))
    (holds : s.Holds (layoutDir self.root target.layoutId) b) (length : b.length = e.public.length)
    (digest : digestOf b = e.public.digest) :
    Endures (fsMachine π) C (tried (self.commitRecall ctx target ⟨b.length, digestOf b⟩)) s
      fun x s' => x.1 = e.public.recalled ∧ s'.Holds (layoutDir self.root target.layoutId) b ∧
        self.Turned (self.state.publishing ctx e target ⟨b.length, digestOf b⟩) s s' x.2 := by
  have publish := State.publish_eq_ok.mpr
    ⟨e, (State.entity_eq_ok.mp current).2.1, admits, rfl, rfl⟩
  have sealable : self.state.sealable ⟨ctx, target, anchor⟩ target ⟨b.length, digestOf b⟩ b.length
      (digestOf b) = .ok () :=
    State.sealable_eq_ok.mpr ⟨e, current, published, anchored, rfl, length, digest⟩
  refine step_endures (R := fun value next s' => .ok (value, next) =
      self.state.publish ctx target ∧ Placed (layoutDir self.root target.layoutId) .sealed
        (.seal (.recalled target.data)) s s') smooth h qualified new ?_ ?_ ?_
  · refine wp_commitRecallEffect (fun s' d b hc => steady s' _ hc frame_lock) ?_ ?_
      fun e' s' _ hn => ?_
    · rintro s' (hf | sealing)
      · exact steady s s' now hf
      · exact marked s' sealing.placed
    · intro _ _ r s' _ _ _ hr sealing _ hk
      refine ⟨r, rfl, h.frame sealing.placed.others ⟨id, fun h => by cases h.2⟩
        ⟨id, fun h => by cases h.2⟩ hk, sealing.placed.others.mono fun d n hd => ⟨hd.named, ?_⟩,
        hr.symm, sealing.placed⟩
      rintro ⟨rfl, rfl⟩
      rcases hd.2 with hn | hn
      · cases hn
      · exact hn ((List.suffix_cons _ self.root).trans (List.suffix_cons _ _))
    · exact (hn ⟨smooth, ⟨_, destination ▸ decodeEndpoint_endpoint _, rfl⟩,
        ⟨anchor, b, owner, holds, sealable⟩, ⟨_, publish⟩, h.idle _⟩).elim
  · rintro value next s₁ s' ⟨hr, hp⟩ now₁ (h' | h')
    · exact steady s₁ s' now₁ h'
    · rw [publish] at hr
      cases hr
      exact written s₁ s' now₁ hp h'
  · rintro value next self' s₁ s' ⟨hr, hp⟩ hf ht
    rw [publish] at hr
    cases hr
    exact ⟨rfl, (holds.frame hp.others ⟨id, by simp⟩).frame hf ⟨id, fun h => by cases h.2⟩, ht⟩

end

omit [Crates] in
theorem read_succeeds {data : DataKey} {e : Entity} {layout : String} {b : Bytes}
    (h : self.Serving s)
    (current : self.state.entity data = .ok e) (published : e.published = some layout)
    (holds : s.Holds (layoutDir self.root layout) b) :
    Succeeds (fsMachine π) (self.read data.entity) s fun c s' => c = b ∧ s' = s := by
  obtain ⟨owns, he, -⟩ := State.entity_eq_ok.mp current
  obtain ⟨x, hx⟩ := holds
  refine .check (healthy_eq_ok.mpr h.healthy) (.check (State.validateKey_eq_ok.mpr owns)
    (.check (HsmResult.okOr_eq_ok.mpr he) (.check (HsmResult.okOr_eq_ok.mpr published) ?_)))
  refine .bind ((readFile_succeeds smooth hx).mono ?_)
  rintro _ _ ⟨rfl, rfl⟩
  exact .pure ⟨rfl, rfl⟩

/-! ## Opening -/

omit [Crates] in
theorem readState_succeeds {root : Dir} {P : State κ → Prop} (hd : s.dir root = true)
    (held : Held P (s.lookup root .state))
    (new : s.lookup root .state = none → ∀ a b, P (State.new a b))
    (synced : s.safeFile root .state = s.lookup root .state) :
    Succeeds (fsMachine π) (readState root) s fun st s' => P st ∧ s'.Safe root .state (.state st) ∧
      Frame (NamedBut root .state) s s' ∧ s'.locked = s.locked := by
  refine .bind (Succeeds.mono (Q := fun b s' => b = (s.lookup root .state).isSome ∧ s' = s)
    (wp_existsFile trivial rfl ⟨_, rfl, rfl, rfl⟩) ?_)
  rintro _ s₁ ⟨rfl, rfl⟩
  cases hl : s₁.lookup root .state with
  | some f =>
    obtain ⟨st, rfl, hp⟩ := held f hl
    refine .bind ((readFile_succeeds smooth hl).mono ?_)
    rintro _ _ ⟨rfl, rfl⟩
    exact .pure ⟨hp, ⟨hl, synced.trans hl⟩, .refl _, rfl⟩
  | none =>
    refine .bind (uuid_succeeds.mono ?_)
    rintro a _ ⟨-, rfl⟩
    refine .bind (uuid_succeeds.mono ?_)
    rintro b _ ⟨-, rfl⟩
    refine .bind ((writeJson_succeeds (s := (s₁.issue a).issue b) smooth id hd).mono ?_)
    rintro - s' ⟨placed, safe, hk⟩
    exact .pure ⟨new hl a b, safe, (frame_issue.trans frame_issue).trans placed.others, hk⟩

omit [Crates] in
/-- A root without metadata or with those of this schema, which nobody owns, is opened. -/
theorem open_succeeds {root : Dir} {P : State κ → Prop} (schema : ∀ st, P st → st.schema = 1)
    (held : Held P (s.lookup root .state))
    (new : s.lookup root .state = none → ∀ a b, P (State.new a b)) (tree : s.Tree)
    (top : s.dir [] = true) (free : s.locked root .ownerLock = false)
    (idle : ∀ d, s.locked d .transferLock = false) :
    Succeeds (fsMachine π) (LocalStorage.open root) s fun self s' =>
      self.root = root ∧ P self.state ∧ self.Serving s' ∧
        s'.locked = (s.setLock root .ownerLock true).locked := by
  refine .bind ((lockRoot_succeeds smooth tree top free).mono ?_)
  rintro - s₁ ⟨f₁, t₁, hd₁, k₁⟩
  have loads : Succeeds (fsMachine π) (load root) s₁ fun self s' =>
      self.root = root ∧ P self.state ∧ self.Serving s' ∧
        s'.locked = (s.setLock root .ownerLock true).locked := by
    refine .bind ((createDirAll_succeeds smooth t₁ (f₁.dirs top)).mono ?_)
    rintro - s₂ ⟨f₂, hd₂, k₂⟩
    refine .bind ((syncDir_succeeds smooth (f₂.dirs hd₁)).mono ?_)
    rintro - s₃ rfl
    have onto : Upgrade (s.lookup root .state) ((s₂.flush root).lookup root .state) :=
      (f₁.now root .state id).trans (f₂.now root .state id)
    have synced : (s₂.flush root).safeFile root .state = (s₂.flush root).lookup root .state := by
      rw [Disk.lookup_flush]
      simp [Disk.flush]
    refine .bind ((readState_succeeds (s := s₂.flush root) smooth (f₂.dirs hd₁) (held.upgrade onto)
      (fun hn => new ?_) synced).mono ?_)
    · rw [hn] at onto
      exact onto.none_right
    rintro st s₄ ⟨hp, safe, f₄, k₄⟩
    have locked : s₄.locked = (s.setLock root .ownerLock true).locked := (k₄.trans k₂).trans k₁
    refine .guard (by simp [schema st hp]) (.pure ⟨rfl, hp, ⟨rfl, safe, ?_, fun d => ?_⟩, locked⟩)
    · exact f₄.dir _ .data ⟨id, by simp⟩ hd₂
    · rw [locked]
      simpa [Disk.setLock] using idle d
  refine Prog.wp_bind.mpr (Prog.wp_mono loads (fun _ h => h) ?_)
  rintro _ s' - ⟨self, rfl, h⟩
  exact ⟨trivial, self, rfl, h⟩

end

end LocalStorage

end HsmRs
