import HsmRs.Local.Footprint
import HsmRs.Storage.Layouts

/-! # Calls of local storage

The mutating calls as one type of requests, and what a call can come to: it
answers without touching the metadata, or it decides on new metadata and persists
them, which fails or not. A crash leaves the old or the new metadata.
-/

namespace HsmRs

/-- The calls of local storage that can change it. -/
inductive Request
  | step (ctx : OperationContext) (request : StepRequest)
  | «import» (entityId : String) (bytes : Bytes)
  | collectGarbage

inductive Reply
  | value (value : StepValue)
  | count (n : Nat)
  deriving DecidableEq

variable {κ α : Type} [DecidableEq κ] [KeyHash κ] [Crates]

namespace LocalStorage

def replying (f : α → Reply) (p : Prog (LocalSig κ) (HsmResult α × LocalStorage κ)) :
    Prog (LocalSig κ) (HsmResult Reply × LocalStorage κ) :=
  p >>= fun x => .ret (x.1.map f, x.2)

def performStep (self : LocalStorage κ) (ctx : OperationContext) :
    StepRequest → Prog (LocalSig κ) (HsmResult Reply × LocalStorage κ)
  | .prepareArchive data => replying (.value ∘ .view) (self.prepareArchive ctx data)
  | .commitArchive view receipt =>
      replying (.value ∘ .state) (self.commitArchive ctx view receipt)
  | .release expected => replying (.value ∘ .state) (self.release ctx expected)
  | .prepareRecall expected anchor =>
      replying (.value ∘ .target) (self.prepareRecall ctx expected anchor)
  | .commitRecall target evidence =>
      replying (.value ∘ .state) (self.commitRecall ctx target evidence)

def perform (self : LocalStorage κ) : Request → Prog (LocalSig κ) (HsmResult Reply × LocalStorage κ)
  | .step ctx request => self.performStep ctx request
  | .import entityId bytes => replying (.value ∘ .state) (self.import entityId bytes)
  | .collectGarbage => replying .count self.collectGarbage

def replayed (saved : SavedStep κ) (fingerprint : κ) : StepRequest → HsmResult Reply
  | .prepareArchive _ => (replay saved fingerprint : HsmResult DataView).map (.value ∘ .view)
  | .prepareRecall _ _ => (replay saved fingerprint : HsmResult RecallTarget).map (.value ∘ .target)
  | _ => (replay saved fingerprint : HsmResult EntityState).map (.value ∘ .state)

end LocalStorage

open LocalStorage

/-- What a call on a healthy handle decides: its answer and, where it changes the metadata,
what it persists before it gives that answer. `fresh` are the names it may be given. -/
inductive Settles (root : Dir) (fresh : String → Prop) (st : State κ) :
    Request → HsmResult Reply → Option (State κ) → Prop where
  | unqualified {ctx : OperationContext} {request : StepRequest} {e : HsmError} :
      qualify ctx = .error e → Settles root fresh st (.step ctx request) (.error e) none
  | replayed {ctx : OperationContext} {request : StepRequest} {saved : SavedStep κ} :
      qualify ctx = .ok () → st.steps.lookup (key (.step ctx request.name)) = some saved →
      Settles root fresh st (.step ctx request)
        (replayed saved (key (.request ctx request)) request)
        none
  | uncertain {ctx : OperationContext} {request : StepRequest} {e : HsmError} :
      qualify ctx = .ok () → st.steps.lookup (key (.step ctx request.name)) = none →
      ¬ e.Definite → Settles root fresh st (.step ctx request) (.error e) none
  | failed {ctx : OperationContext} {request : StepRequest} {f : SavedFailure} :
      qualify ctx = .ok () → st.steps.lookup (key (.step ctx request.name)) = none →
      Settles root fresh st (.step ctx request) (.error f.intoError)
        (some (st.record (key (.step ctx request.name)) ⟨key (.request ctx request), .error f⟩))
  | done {ctx : OperationContext} {request : StepRequest} {value : StepValue} {next : State κ} :
      qualify ctx = .ok () → st.steps.lookup (key (.step ctx request.name)) = none →
      Effect root fresh st ctx request value next →
      Settles root fresh st (.step ctx request) (.ok (.value value))
        (some (next.record (key (.step ctx request.name)) ⟨key (.request ctx request), .ok value⟩))
  | unnamed {bytes : Bytes} :
      Settles root fresh st (.import "" bytes) (.error (.invalid "entity ID required")) none
  | existing {entityId : String} {bytes : Bytes} : entityId ≠ "" → entityId ∈ st.entities →
      Settles root fresh st (.import entityId bytes)
        (.error (.conflict "entity already exists")) none
  | notImported {entityId : String} {bytes : Bytes} {e : HsmError} :
      entityId ≠ "" → entityId ∉ st.entities →
      Settles root fresh st (.import entityId bytes) (.error e) none
  | imported {entityId : String} {bytes : Bytes} {layout : String} :
      entityId ≠ "" → entityId ∉ st.entities → fresh layout →
      Settles root fresh st (.import entityId bytes)
        (.ok (.value (.state (imported st entityId layout bytes.length (digestOf bytes)).public)))
        (some { st with
          entities := st.entities.insert entityId
            (imported st entityId layout bytes.length (digestOf bytes)) })
  | notCollected {e : HsmError} : Settles root fresh st .collectGarbage (.error e) none
  | collected {n : Nat} : Settles root fresh st .collectGarbage (.ok (.count n))
      (some { st with gc := [] })

theorem Settles.mono {root : Dir} {fresh fresh' : String → Prop} {st : State κ}
    {request : Request} {answer : HsmResult Reply} {next : Option (State κ)}
    (h : Settles root fresh st request answer next) (hf : ∀ u, fresh u → fresh' u) :
    Settles root fresh' st request answer next := by
  cases h with
  | unqualified hq => exact .unqualified hq
  | replayed hq hl => exact .replayed hq hl
  | uncertain hq hl he => exact .uncertain hq hl he
  | failed hq hl => exact .failed hq hl
  | done hq hl he => exact .done hq hl (he.mono hf)
  | unnamed => exact .unnamed
  | existing h₀ he => exact .existing h₀ he
  | notImported h₀ he => exact .notImported h₀ he
  | imported h₀ he hu => exact .imported h₀ he (hf _ hu)
  | notCollected => exact .notCollected
  | collected => exact .collected

/-- Both versions of the metadata file hold one of two values. -/
def Between (root : Dir) (s : Disk (FileName κ) (Content κ)) (st st' : State κ) : Prop :=
  (s.lookup root .state = some ⟨.state st, true⟩ ∨ s.lookup root .state = some ⟨.state st', true⟩) ∧
  (s.safeFile root .state = some ⟨.state st, true⟩ ∨
    s.safeFile root .state = some ⟨.state st', true⟩)

def Cell (root : Dir) (d : Dir) (n : FileName κ) : Prop := d = root ∧ n = .state

/-- How a call on a healthy handle that starts in `s` ends. -/
inductive Outcome (π : Env (FileName κ) (Content κ)) (self : LocalStorage κ) (request : Request)
    (s : Disk (FileName κ) (Content κ)) :
    HsmResult Reply → LocalStorage κ → Disk (FileName κ) (Content κ) → Prop where
  | kept {answer : HsmResult Reply} {s' : Disk (FileName κ) (Content κ)} :
      Settles self.root (Given π.toPolicy s.issued s'.issued) self.state request answer none →
      s'.Safe self.root .state (.state self.state) → Lays self.root self.state self.state s s' →
      Outcome π self request s answer self s'
  | adopted {answer : HsmResult Reply} {next : State κ} {s' : Disk (FileName κ) (Content κ)} :
      Settles self.root (Given π.toPolicy s.issued s'.issued) self.state
        request answer (some next) →
      s'.Safe self.root .state (.state next) → Lays self.root self.state next s s' →
      Outcome π self request s answer { self with state := next } s'
  | poisoned {answer : HsmResult Reply} {next : State κ} {e : HsmError}
      {s' : Disk (FileName κ) (Content κ)} :
      Settles self.root (Given π.toPolicy s.issued s'.issued) self.state
        request answer (some next) →
      ¬ e.Definite → Between self.root s' self.state next → Lays self.root self.state next s s' →
      Outcome π self request s (.error e) { self with poisoned := true } s'

/-- What a crash in a call on a healthy handle that starts in `s` leaves. -/
def Midway (π : Env (FileName κ) (Content κ)) (self : LocalStorage κ) (request : Request)
    (s s' : Disk (FileName κ) (Content κ)) : Prop :=
  ∃ next, (next = self.state ∨ ∃ answer,
      Settles self.root (Given π.toPolicy s.issued s'.issued) self.state request
        answer (some next)) ∧
    Between self.root s' self.state next ∧ Lays self.root self.state next s s'

section

variable {π : Env (FileName κ) (Content κ)} {s s₀ s' : Disk (FileName κ) (Content κ)}
  {self : LocalStorage κ} {request : Request} {next : State κ} {answer : HsmResult Reply}
  {root : Dir} {st : State κ}

omit [DecidableEq κ] [KeyHash κ] [Crates] in
theorem Disk.Safe.between (h : s.Safe root .state (.state st)) : Between root s st st :=
  ⟨.inl h.1, .inl h.2⟩

/-! ### Rules for the parts of a call -/

section Rules

variable {C : Disk (FileName κ) (Content κ) → Prop}

omit [KeyHash κ] [Crates] in
theorem wp_replying {f : α → Reply} {p : Prog (LocalSig κ) (HsmResult α × LocalStorage κ)}
    {Q : HsmResult Reply × LocalStorage κ → Disk (FileName κ) (Content κ) → Prop}
    (h : p.wp π.machine C (fun x s' => Q (x.1.map f, x.2) s') s) :
    (replying f p).wp π.machine C Q s :=
  Prog.wp_bind.mpr (Prog.wp_mono h (fun _ hc => hc) fun _ _ hc hq => ⟨hc, hq⟩)

omit [KeyHash κ] [Crates] in
theorem wp_adopt {answer : HsmResult α}
    {Q : HsmResult α × LocalStorage κ → Disk (FileName κ) (Content κ) → Prop}
    (cut : ∀ s', Frame Named s s' ∨ Placed self.root .state (.state next) s s' → C s')
    (ok : ∀ s', Placed self.root .state (.state next) s s' →
      s'.Safe self.root .state (.state next) → s'.locked = s.locked →
      Q (answer, { self with state := next }) s')
    (error : ∀ e s', ¬ e.Definite → Frame Named s s' ∨ Placed self.root .state (.state next) s s' →
      (¬ π.Smooth ∨ s.dir self.root = false) → Q (.error e, { self with poisoned := true }) s') :
    (self.adopt next answer).wp π.machine C Q s := by
  unfold LocalStorage.adopt LocalStorage.persist
  rw [Prog.wp_bind, Prog.wp_bind]
  refine wp_writeJson id cut (fun s' hp hs hk => ?_) fun e s' he h hr => ?_
  · exact ⟨cut s' (.inr hp), cut s' (.inr hp), ok s' hp hs hk⟩
  · exact ⟨cut s' h, cut s' h, error e s' he h hr⟩

omit [Crates] in
/-- A step is refused, replayed or run, and what it comes to is persisted. -/
theorem wp_step [Recorded α] {ctx : OperationContext} {request : StepRequest}
    {effect : State κ → Io κ (α × State κ)}
    {Q : HsmResult α × LocalStorage κ → Disk (FileName κ) (Content κ) → Prop}
    (hp : self.poisoned = false) (now : C s)
    (unqualified : ∀ e, qualify ctx = .error e → Q (.error e, self) s)
    (replayed : ∀ saved, qualify ctx = .ok () →
      self.state.steps.lookup (key (.step ctx request.name)) = some saved →
      Q (replay saved (key (.request ctx request)), self) s)
    (run : qualify ctx = .ok () → self.state.steps.lookup (key (.step ctx request.name)) = none →
      (effect self.state).run.wp π.machine C (fun r s' => match r with
        | .ok (value, next) => (self.adopt (next.record (key (.step ctx request.name))
            ⟨key (.request ctx request), .ok (Recorded.toValue value)⟩) (.ok value)).wp
              π.machine C Q s'
        | .error e => (¬ e.Definite → Q (.error e, self) s') ∧ ∀ f : SavedFailure,
            e = f.intoError → (self.adopt (self.state.record (key (.step ctx request.name))
              ⟨key (.request ctx request), .error f⟩) (.error e)).wp π.machine C Q s') s) :
    (self.step ctx request effect).wp π.machine C Q s := by
  unfold LocalStorage.step
  cases hq : qualify ctx with
  | error e => exact ⟨now, unqualified e hq⟩
  | ok =>
    rw [healthy_eq_ok.mpr hp]
    cases hl : self.state.steps.lookup (key (.step ctx request.name)) with
    | some saved =>
      simp only [hl]
      exact ⟨now, replayed saved hq hl⟩
    | none =>
      simp only [hl]
      rw [Prog.wp_bind]
      refine Prog.wp_mono (run hq hl) (fun _ h => h) ?_
      rintro (e | ⟨value, next⟩) s' hc h
      · cases hf : SavedFailure.capture e with
        | none =>
          simp only [hf]
          exact ⟨hc, h.1 (SavedFailure.capture_eq_none.mp hf)⟩
        | some f =>
          simp only [hf]
          exact h.2 f (SavedFailure.capture_eq_some.mp hf)
      · exact h

end Rules

/-! ### What calls come to -/

omit [DecidableEq κ] [KeyHash κ] [Crates] in
theorem Cell.named {d : Dir} {n : FileName κ} (h : Cell root d n) : Named d n := by
  rw [Named, h.2]
  exact id

omit [DecidableEq κ] [KeyHash κ] [Crates] in
theorem not_cell_layout {layout : String} {n : FileName κ} :
    ¬ Cell root (layoutDir root layout) n := fun h => layoutDir_ne_root h.1

theorem Midway.of_safe (h : s.Safe self.root .state (.state self.state))
    (hl : Frame (Shown self.root self.state s₀) s₀ s) : Midway π self request s₀ s :=
  ⟨self.state, .inl rfl, h.between, hl, .refl⟩

/-- The call has decided on its answer and persists the metadata that go with it. -/
theorem wp_settle_call {f : α → Reply} {answer : HsmResult α}
    (hs : s.Safe self.root .state (.state self.state))
    (hl : Lays self.root self.state next s₀ s)
    (ha : Settles self.root (Given π.toPolicy s₀.issued s.issued) self.state request (answer.map f)
      (some next)) :
    (self.adopt next answer).wp π.machine (Midway π self request s₀)
      (fun x s' => Outcome π self request s₀ (x.1.map f) x.2 s') s := by
  have settles : ∀ s', Frame Named s s' ∨ Placed self.root .state (.state next) s s' →
      Settles self.root (Given π.toPolicy s₀.issued s'.issued) self.state request (answer.map f)
        (some next) := fun s' h =>
    ha.mono fun u hu => hu.mono (fun _ h => h) (h.elim Frame.issued fun hp => hp.others.issued)
  have lays : ∀ s', Frame Named s s' ∨ Placed self.root .state (.state next) s s' →
      Lays self.root self.state next s₀ s' := fun s' h =>
    hl.before (h.elim (fun hf => hf.mono fun _ _ => NamedBut.named) fun hp => hp.others)
  have between : ∀ s', Frame Named s s' ∨ Placed self.root .state (.state next) s s' →
      Between self.root s' self.state next := by
    rintro s' (hf | hp)
    · have h := hs.frame hf id
      exact ⟨.inl h.1, .inl h.2⟩
    · refine ⟨.inr hp.now, ?_⟩
      rcases hp.safe with he | hu | he
      · exact .inl (he.trans hs.2)
      · rw [hs.1] at hu
        exact .inl hu.synced
      · exact .inr he
  have midway : ∀ s', Frame Named s s' ∨ Placed self.root .state (.state next) s s' →
      Midway π self request s₀ s' := fun s' h =>
    ⟨next, .inr ⟨_, settles s' h⟩, between s' h, lays s' h⟩
  refine wp_adopt midway (fun s' hp hn _ => ?_) fun e s' he h _ => ?_
  · exact .adopted (settles s' (.inr hp)) hn (lays s' (.inr hp))
  · exact .poisoned (settles s' h) he (between s' h) (lays s' h)

theorem wp_protected [Recorded α] {ctx : OperationContext} {request : StepRequest}
    {effect : State κ → Io κ (α × State κ)} (hp : self.poisoned = false)
    (hs : s.Safe self.root .state (.state self.state))
    (replays : ∀ (saved : SavedStep κ) (fingerprint : κ), replayed saved fingerprint request =
      (replay saved fingerprint : HsmResult α).map (Reply.value ∘ Recorded.toValue))
    (yields : ∀ fresh value next,
      (effect self.state).run.Yields (Names fresh) (.ok (value, next)) →
      Effect self.root fresh self.state ctx request (Recorded.toValue value) next)
    (run : (effect self.state).run.wp π.machine
      (fun s' => s'.Safe self.root .state (.state self.state) ∧
        Frame (Shown self.root self.state s) s s')
      (fun r s' => ∀ value next, r = .ok (value, next) →
        Provides self.root self.state next s') s) :
    (replying (Reply.value ∘ Recorded.toValue) (self.step ctx request effect)).wp π.machine
      (Midway π self (.step ctx request) s)
      (fun x s' => Outcome π self (.step ctx request) s x.1 x.2 s') s := by
  have hl : Lays self.root self.state self.state s s := ⟨.refl s, .refl⟩
  refine wp_replying (wp_step hp (.of_safe hs hl.frame) (fun e hq => ?_) (fun saved hq hl' => ?_)
    fun hq hn => ?_)
  · exact .kept (.unqualified hq) hs hl
  · refine .kept ?_ hs hl
    rw [← replays]
    exact .replayed hq hl'
  · refine Prog.wp_runs (Prog.wp_mono run (fun s' h => .of_safe h.1 h.2) ?_)
    rintro (e | ⟨value, next⟩) s' ⟨hs', hf⟩ hprov hr
    · refine ⟨fun he => .kept (.uncertain hq hn he) hs' ⟨hf, .refl⟩, ?_⟩
      rintro f rfl
      exact wp_settle_call hs' ⟨hf, Provides.refl.of_eq rfl rfl⟩ (.failed hq hn)
    · exact wp_settle_call hs' ⟨hf, (hprov value next rfl).of_eq rfl rfl⟩
        (.done hq hn (yields _ value next hr.yields))

omit [KeyHash κ] [Crates] in
theorem wp_sparing {α : Type} {p : Io κ α} {Q : HsmResult α → Disk (FileName κ) (Content κ) → Prop}
    (hs : s.Safe self.root .state (.state self.state))
    (spares : ∀ K : Dir → FileName κ → Prop, p.run.Within (FsOp.Spares K))
    (h : ∀ r s', Runs π.machine p.run s r s' → Q r s') :
    p.run.wp π.machine (fun s' => s'.Safe self.root .state (.state self.state) ∧
      Frame (Shown self.root self.state s) s s') Q s :=
  Prog.wp_frame (spares Named)
    (fun _ hf => ⟨hs.frame hf id, hf.mono fun _ _ => Shown.named⟩) fun r s' hr _ => h r s' hr

omit [KeyHash κ] in
/-- `commit_recall` seals the private layout of an active recall with what it publishes. -/
theorem wp_publishing {ctx : OperationContext} {target : RecallTarget} {evidence : TransferEvidence}
    (hs : s.Safe self.root .state (.state self.state)) :
    (commitRecallEffect self.root ctx target evidence self.state).run.wp π.machine
      (fun s' => s'.Safe self.root .state (.state self.state) ∧
        Frame (Shown self.root self.state s) s s')
      (fun r s' => ∀ value next, r = .ok (value, next) →
        Provides self.root self.state next s') s := by
  have spared : ∀ {s'}, Sealing self.root ctx target self.state s s' →
      Frame (fun d n => Cell self.root d n ∨ Shown self.root self.state s d n) s s' := by
    intro s' h
    obtain ⟨anchor, ho⟩ := h.owner
    refine h.placed.others.mono fun d n hk => ?_
    rcases hk with hc | hc
    · exact ⟨hc.named, fun h => not_cell_layout (h.1 ▸ hc)⟩
    · refine ⟨hc.named, fun h => ?_⟩
      cases hc with
      | content _ hr _ _ _ =>
        rw [layoutDir_injective h.1, ho] at hr
        cases hr
      | entry => cases h.2
  have cut : ∀ s', Frame Named s s' ∨ Sealing self.root ctx target self.state s s' →
      s'.Safe self.root .state (.state self.state) ∧ Frame (Shown self.root self.state s) s s' := by
    rintro s' (hf | h)
    · exact ⟨hs.frame hf id, hf.mono fun _ _ => Shown.named⟩
    · exact ⟨hs.frame (spared h) (.inl ⟨rfl, rfl⟩), (spared h).mono fun _ _ => .inr⟩
  refine Prog.wp_runs (wp_commitRecallEffect
    (fun s' d b h => ⟨h.1.frame (K := Named) frame_lock id, h.2.trans frame_lock⟩) cut ?_
    fun e s' _ _ _ _ _ => nofun)
  rintro anchor b r s' - - hl - - hb - hr value next ⟨⟩
  refine (commitRecallEffect_yields hr.yields).provides nofun ?_
  rintro target evidence ⟨⟩
  obtain ⟨-, -, -, -, rfl, -⟩ := State.sealable_eq_ok.mp hl
  exact hb

omit [KeyHash κ] in
/-- `prepare_recall` makes the directory of the recall that it starts. -/
theorem wp_preparing {ctx : OperationContext} {expected : EntityState} {anchor : ArchiveReceipt}
    (hs : s.Safe self.root .state (.state self.state)) :
    (prepareRecallEffect self.root ctx expected anchor self.state).run.wp π.machine
      (fun s' => s'.Safe self.root .state (.state self.state) ∧
        Frame (Shown self.root self.state s) s s')
      (fun r s' => ∀ value next, r = .ok (value, next) →
        Provides self.root self.state next s') s := by
  refine Prog.wp_runs (wp_prepareRecallEffect
    (fun s' hf => ⟨hs.frame hf id, hf.mono fun _ _ => Shown.named⟩) ?_ fun _ _ _ _ _ _ => nofun)
  rintro layout s' - - hm - - hr value next ⟨⟩
  refine (prepareRecallEffect_yields hr.yields).provides ?_ nofun
  rintro _ _ _ ⟨⟩ ⟨⟩
  exact ⟨hm.dir, hm.safe⟩

theorem wp_performStep {ctx : OperationContext} {request : StepRequest}
    (hp : self.poisoned = false) (hs : s.Safe self.root .state (.state self.state)) :
    (self.performStep ctx request).wp π.machine (Midway π self (.step ctx request) s)
      (fun x s' => Outcome π self (.step ctx request) s x.1 x.2 s') s := by
  cases request with
  | prepareArchive data =>
    refine wp_protected hp hs (fun _ _ => rfl) (fun _ _ _ => prepareArchiveEffect_yields)
      (wp_sparing hs (fun _ => spares_prepareArchiveEffect) ?_)
    rintro r s' hr value next rfl
    exact (prepareArchiveEffect_yields hr.yields).provides nofun nofun
  | commitArchive view receipt =>
    refine wp_protected hp hs (fun _ _ => rfl) (fun _ _ _ => commitArchiveEffect_yields)
      (wp_sparing hs (fun _ => spares_commitArchiveEffect) ?_)
    rintro r s' hr value next rfl
    exact (commitArchiveEffect_yields hr.yields).provides nofun nofun
  | release expected =>
    refine wp_protected hp hs (fun _ _ => rfl) (fun _ _ _ => releaseEffect_yields)
      (wp_sparing hs (fun _ => spares_releaseEffect) ?_)
    rintro r s' hr value next rfl
    exact (releaseEffect_yields hr.yields).provides nofun nofun
  | prepareRecall expected anchor =>
    exact wp_protected hp hs (fun _ _ => rfl) (fun _ _ _ => prepareRecallEffect_yields)
      (wp_preparing hs)
  | commitRecall target evidence =>
    exact wp_protected hp hs (fun _ _ => rfl) (fun _ _ _ => commitRecallEffect_yields)
      (wp_publishing hs)

omit [DecidableEq κ] [KeyHash κ] in
theorem yields_importLayout {fresh : String → Prop} {bytes : Bytes} {layout : String}
    {length : Nat} {digest : ContentDigest}
    (h : (importLayout root bytes : Io κ _).run.Yields (Names fresh)
      (.ok (layout, length, digest))) : fresh layout := by
  unfold importLayout at h
  simp only [Prog.yields_bind_ok, Prog.yields_pure_ok] at h
  obtain ⟨l, hl, -, -, -, -, -, -, ⟨n, g⟩, -, h⟩ := h
  obtain ⟨-, -, hr⟩ := h
  cases hr
  exact yields_newLayout hl

theorem wp_import {entityId : String} {bytes : Bytes} (hp : self.poisoned = false)
    (hs : s.Safe self.root .state (.state self.state)) :
    (replying (.value ∘ .state) (self.import entityId bytes)).wp π.machine
      (Midway π self (.import entityId bytes) s)
      (fun x s' => Outcome π self (.import entityId bytes) s x.1 x.2 s') s := by
  have hl : Lays self.root self.state self.state s s := ⟨.refl s, .refl⟩
  unfold LocalStorage.import
  refine wp_replying ?_
  by_cases h₀ : entityId = ""
  · subst h₀
    exact ⟨.of_safe hs hl.frame, .kept .unnamed hs hl⟩
  rw [if_neg h₀]
  simp only [healthy_eq_ok.mpr hp]
  by_cases he : entityId ∈ self.state.entities
  · rw [if_pos he]
    exact ⟨.of_safe hs hl.frame, .kept (.existing h₀ he) hs hl⟩
  rw [if_neg he]
  have hd : s.dir self.root = true := Disk.dir_of_lookup (n := .state) (by simp [hs.1])
  have safe : ∀ {s'}, Frame (Old s) s s' → s'.Safe self.root .state (.state self.state) :=
    fun hf => hs.frame hf ⟨id, hd⟩
  have shown : ∀ {s'}, Frame (Old s) s s' → Frame (Shown self.root self.state s) s s' :=
    fun hf => hf.mono fun _ _ h => ⟨h.named, h.dir⟩
  rw [Prog.wp_bind]
  refine Prog.wp_runs (wp_importLayout (fun s' hf => .of_safe (safe hf) (shown hf)) ?_ ?_)
  · intro layout s' hf hg hb hr
    refine wp_settle_call (safe hf) ⟨shown hf, .entered rfl (fun _ => id) fun l hp' => ?_⟩
      (.imported h₀ he (yields_importLayout hr.yields))
    cases hp'
    exact ⟨.inr hb, .inr hg⟩
  · exact fun e s' hf _ => ⟨.of_safe (safe hf) (shown hf),
      .kept (.notImported h₀ he) (safe hf) ⟨shown hf, .refl⟩⟩

theorem wp_collectGarbage (hp : self.poisoned = false)
    (hs : s.Safe self.root .state (.state self.state)) :
    (replying .count self.collectGarbage).wp π.machine (Midway π self .collectGarbage s)
      (fun x s' => Outcome π self .collectGarbage s x.1 x.2 s') s := by
  unfold LocalStorage.collectGarbage
  refine wp_replying ?_
  simp only [healthy_eq_ok.mpr hp]
  rw [Prog.wp_bind]
  have cell : ∀ layout ∈ self.state.gc, ∀ d (n : FileName κ),
      Cell self.root d n ∨ Shown self.root self.state s d n →
        ¬ layoutDir self.root layout <:+ d := by
    rintro layout hg d n (⟨rfl, -⟩ | hk) h
    · have := h.length_le
      simp only [layoutDir, layoutsDir, List.length_cons] at this
      omega
    · cases hk with
      | content _ _ hn _ _ => exact hn (layoutDir_suffix h ▸ hg)
      | entry _ hn _ => exact hn (layoutDir_suffix h ▸ hg)
  have safe : ∀ {s'},
    Frame (fun d n => Cell self.root d n ∨ Shown self.root self.state s d n) s s' →
      s'.Safe self.root .state (.state self.state) ∧ Frame (Shown self.root self.state s) s s' :=
    fun hf => ⟨hs.frame hf (.inl ⟨rfl, rfl⟩), hf.mono fun _ _ => .inr⟩
  refine Prog.wp_frame (K := fun d n => Cell self.root d n ∨ Shown self.root self.state s d n) ?_
    (fun s' hf => .of_safe (safe hf).1 (safe hf).2) ?_
  · exact Prog.within_bind (spares_sweep cell) fun _ =>
      Prog.within_bind (within_io.mpr trivial) fun _ => trivial
  intro r s' _ hf
  rcases r with e | n
  · exact ⟨.of_safe (safe hf).1 (safe hf).2, .kept .notCollected (safe hf).1 ⟨(safe hf).2, .refl⟩⟩
  · exact wp_settle_call (safe hf).1 ⟨(safe hf).2, Provides.refl.of_eq rfl rfl⟩ .collected

theorem wp_perform (hp : self.poisoned = false)
    (hs : s.Safe self.root .state (.state self.state)) :
    (self.perform request).wp π.machine (Midway π self request s)
      (fun x s' => Outcome π self request s x.1 x.2 s') s := by
  cases request with
  | step ctx request => exact wp_performStep hp hs
  | «import» entityId bytes => exact wp_import hp hs
  | collectGarbage => exact wp_collectGarbage hp hs

theorem perform_runs {self' : LocalStorage κ} (hp : self.poisoned = false)
    (hs : s.Safe self.root .state (.state self.state))
    (hr : Runs π.machine (self.perform request) s (answer, self') s') :
    Outcome π self request s answer self' s' := by
  have := Prog.wp_sound_runs (wp_perform hp hs) hr
  exact this

theorem perform_cuts (hp : self.poisoned = false)
    (hs : s.Safe self.root .state (.state self.state))
    (hc : Cuts π.machine (self.perform request) s s') : Midway π self request s s' :=
  Prog.wp_sound_cuts (wp_perform hp hs) hc

end

/-- The checks a call makes before it looks at the handle. -/
def Request.check : Request → HsmResult Unit
  | .step ctx _ => qualify ctx
  | .import entityId _ =>
      if entityId = "" then .error (.invalid "entity ID required") else .ok ()
  | .collectGarbage => .ok ()

def Request.refusal (request : Request) : HsmError :=
  match request.check with
  | .error e => e
  | .ok () => .unknown "reopen local storage after uncertain metadata commit"

omit [Crates] in
theorem step_poisoned [Recorded α] {self : LocalStorage κ} {ctx : OperationContext}
    {request : StepRequest} {effect : State κ → Io κ (α × State κ)} (hp : self.poisoned = true) :
    self.step ctx request effect = .ret (.error (Request.refusal (.step ctx request)), self) := by
  unfold LocalStorage.step Request.refusal Request.check LocalStorage.healthy
  cases hq : qualify ctx <;> simp [hq, hp]

theorem perform_poisoned {self : LocalStorage κ} {request : Request} (hp : self.poisoned = true) :
    self.perform request = .ret (.error request.refusal, self) := by
  have hh :
    self.healthy = .error (.unknown "reopen local storage after uncertain metadata commit") := by
    simp [LocalStorage.healthy, hp]
  cases request with
  | step ctx request =>
    cases request <;>
      simp only [LocalStorage.perform, LocalStorage.performStep, LocalStorage.prepareArchive,
        LocalStorage.commitArchive, LocalStorage.release, LocalStorage.prepareRecall,
        LocalStorage.commitRecall, step_poisoned hp] <;> rfl
  | «import» entityId bytes =>
    simp only [LocalStorage.perform, LocalStorage.import, Request.refusal, Request.check]
    by_cases h : entityId = "" <;> simp [h, hh, LocalStorage.replying, Except.map]
  | collectGarbage =>
    simp only [LocalStorage.perform, LocalStorage.collectGarbage, hh]
    rfl

end HsmRs
