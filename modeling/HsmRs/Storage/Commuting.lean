import HsmRs.Storage.Private
import HsmRs.Storage.Returned

/-! # Independent steps commute

A protected step does the same whether or not a step of another operation on another
entity has come before it, and leaves everything as it was that belongs to other entities.
So two such steps can be made in either order.
-/

namespace HsmRs

open LocalStorage

section

variable {κ α : Type} [DecidableEq κ] {π : Policy (FileName κ) (Content κ)}
  {P Q : Dir → Prop} {N : String → Prop} {self self' self₁ self₂ : LocalStorage κ}
  {s s' t t' : Disk (FileName κ) (Content κ)}

/-! ## One step, run twice -/

omit [DecidableEq κ] in
theorem inside_adopt {next : State κ} {answer : HsmResult α} :
    (self.adopt next answer).Within (FsOp.Inside (· = self.root) Q) := by
  unfold LocalStorage.adopt LocalStorage.persist
  refine Prog.Within.bind (Prog.Within.bind
    (inside_writeJson (P := (· = self.root)) rfl) fun r => ?_) fun x => ?_
  · cases r <;> trivial
  · obtain ⟨_ | _, _⟩ := x <;> trivial

theorem runs_adopt {next : State κ} {answer x : HsmResult α} (smooth : π.Smooth)
    (draws : π.Draws N) (hd : s.dir self.root = true)
    (hr : Runs (fsMachine π) (self.adopt next answer) s (x, self₁) s') :
    x = answer ∧ self₁ = { self with state := next } ∧ s.Outside (· = self.root) N s' := by
  have adopted : x = answer ∧ self₁ = { self with state := next } := by
    have := Prog.wp_sound_runs (wp_adopt (C := fun _ => True)
      (Q := fun y _ => y = (answer, { self with state := next })) (fun _ _ => trivial)
      (fun _ _ _ _ => rfl) fun e s' _ _ h => ?_) hr
    · exact Prod.ext_iff.mp this
    · rcases h with h | h
      · exact (h smooth).elim
      · rw [hd] at h
        cases h
  refine ⟨adopted.1, adopted.2, ?_⟩
  exact ((inside_adopt (Q := fun _ => False)).shared (N := N)).outside smooth.faultless draws hr

variable [KeyHash κ] {ctx : OperationContext} {entity : EntityKey}

omit [DecidableEq κ] in
theorem Patch.Confined.recording {p : Patch κ} {st : State κ}
    (h : p.Confined entity ctx.operationId N st)
    {name : StepName} {saved : SavedStep κ} :
    (p.recording (key (.step ctx name)) saved).Confined entity ctx.operationId N st :=
  ⟨h.entities, h.views, h.recalls, fun _ hk => ⟨ctx, name, rfl, Table.edits_iff.mp hk⟩, h.completed⟩

omit [DecidableEq κ] in
theorem Patch.Confined.empty {op : String} {st : State κ} :
    (Patch.empty : Patch κ).Confined entity op N st := by
  refine ⟨?_, .keep, .keep, ?_, ?_⟩
  · exact fun _ h => (Table.not_edits h).elim
  · exact fun _ h => (Table.not_edits h).elim
  · exact fun _ h => (Table.not_edits h).elim

structure Together (P Q : Dir → Prop) (N : String → Prop) (entity : EntityKey) (op : String)
    (a b a' b' : LocalStorage κ) (s s' t t' : Disk (FileName κ) (Content κ)) : Prop where
  patch : ∃ p : Patch κ, p.Confined entity op N a.state ∧
    a' = { a with state := p.apply a.state } ∧ b' = { b with state := p.apply b.state }
  agrees : s'.Agrees P Q (fun _ => False) t'
  outside : s.Outside (fun d => P d ∨ d = a.root) N s'
  outside' : t.Outside (fun d => P d ∨ d = a.root) N t'

theorem step_together [Recorded α] {request : StepRequest} {effect : State κ → Io κ (α × State κ)}
    {x y : HsmResult α} (hp : self.poisoned = false) (hp' : self'.poisoned = false)
    (hroot : self'.root = self.root) (h : self.state.Unseen entity ctx.operationId self'.state)
    (twin : Io.Shared P Q N (Alters entity ctx.operationId N self.state self'.state)
      (effect self.state) (effect self'.state))
    (apart : ∀ d, P d ∨ Q d → d ≠ self.root) (smooth : π.Smooth) (draws : π.Draws N)
    (hd : s.dir self.root = true) (hd' : t.dir self.root = true) (agrees : s.Agrees P Q N t)
    (hr : Runs (fsMachine π) (self.step ctx request effect) s (x, self₁) s')
    (hr' : Runs (fsMachine π) (self'.step ctx request effect) t (y, self₂) t') :
    x = y ∧ Together P Q N entity ctx.operationId self self' self₁ self₂ s s' t t' := by
  have same : ∀ {s' t'}, s'.Agrees P Q (fun _ => False) t' →
      s.Outside (fun d => P d ∨ d = self.root) N s' →
        t.Outside (fun d => P d ∨ d = self.root) N t' →
      Together P Q N entity ctx.operationId self self' self self' s s' t t' :=
    fun ha ho ho' => ⟨⟨.empty, .empty, by simp, by simp⟩, ha, ho, ho'⟩
  have weaken : ∀ {s t : Disk (FileName κ) (Content κ)}, s.Agrees P Q N t →
      s.Agrees P Q (fun _ => False) t := fun h =>
    h.mono (fun _ => id) (fun _ => .inr) fun _ => False.elim
  have wider : ∀ {s t : Disk (FileName κ) (Content κ)}, s.Outside P N t →
      s.Outside (fun d => P d ∨ d = self.root) N t := fun h =>
    h.mono (fun _ hd hp => hd (.inl hp)) (fun _ => False.elim) fun _ => id
  -- the metadata file lies in none of the directories of the entity
  have away : ∀ {s t : Disk (FileName κ) (Content κ)}, s.Outside (· = self.root) N t →
      s.Agrees P Q (fun _ => False) t := fun h =>
    h.mono (fun d hd => apart d (.inl hd)) (fun d hd => .inl (apart d (.inr hd)))
      fun _ => False.elim
  unfold LocalStorage.step at hr hr'
  cases hq : qualify ctx with
  | error e =>
    simp only [hq] at hr hr'
    cases hr
    cases hr'
    exact ⟨rfl, same (weaken agrees) (.refl _) (.refl _)⟩
  | ok =>
    simp only [hq, healthy_eq_ok.mpr hp, healthy_eq_ok.mpr hp',
      h.steps ctx request.name rfl] at hr hr'
    cases hl : self.state.steps.lookup (key (.step ctx request.name)) with
    | some saved =>
      simp only [hl] at hr hr'
      cases hr
      cases hr'
      exact ⟨rfl, same (weaken agrees) (.refl _) (.refl _)⟩
    | none =>
      simp only [hl] at hr hr'
      obtain ⟨r, s₁, he, hr⟩ := Runs.bind_iff.mp hr
      obtain ⟨r', t₁, he', hr'⟩ := Runs.bind_iff.mp hr'
      obtain ⟨hx, agrees₁⟩ := twin.agrees smooth.faultless draws agrees he he'
      have out := twin.outside smooth.faultless draws he
      have out' := twin.swap.outside smooth.faultless draws he'
      have hroot₁ : ¬ P self.root := fun hP => apart _ (.inl hP) rfl
      have hd₁ : s₁.dir self.root = true := (out.dir _ (.inl hroot₁)).trans hd
      have hd₁' : t₁.dir self'.root = true := by
        rw [hroot]
        exact (out'.dir _ (.inl hroot₁)).trans hd'
      -- both adopt the same patch
      have adopted : ∀ {p : Patch κ} {next next' : State κ} {answer : HsmResult α},
          p.Confined entity ctx.operationId N self.state → next = p.apply self.state →
          next' = p.apply self'.state →
          Runs (fsMachine π) (self.adopt next answer) s₁ (x, self₁) s' →
          Runs (fsMachine π) (self'.adopt next' answer) t₁ (y, self₂) t' →
          x = y ∧ Together P Q N entity ctx.operationId self self' self₁ self₂ s s' t t' := by
        rintro p _ _ answer hc rfl rfl ha ha'
        obtain ⟨rfl, rfl, o⟩ := runs_adopt smooth draws hd₁ ha
        obtain ⟨rfl, rfl, o'⟩ := runs_adopt smooth draws hd₁' ha'
        rw [hroot] at o'
        refine ⟨rfl, ⟨p, hc, rfl, rfl⟩, ?_, ?_, ?_⟩
        · exact (away o).symm.trans ((weaken agrees₁).trans (away o'))
        · exact (wider out).trans
            (o.mono (fun _ hd hp => hd (.inr hp)) (fun _ => False.elim) fun _ => id)
        · exact (wider out').trans
            (o'.mono (fun _ hd hp => hd (.inr hp)) (fun _ => False.elim) fun _ => id)
      rcases r with e | ⟨v, next⟩ <;> rcases r' with e' | ⟨v', next'⟩
      · obtain rfl : e = e' := hx
        cases hf : SavedFailure.capture e with
        | none =>
          simp only [hf] at hr hr'
          cases hr
          cases hr'
          exact ⟨rfl, same (weaken agrees₁) (wider out) (wider out')⟩
        | some f =>
          simp only [hf] at hr hr'
          refine adopted (p := Patch.empty.recording (key (.step ctx request.name))
            ⟨key (.request ctx request), .error f⟩) Patch.Confined.empty.recording ?_ ?_ hr hr'
          · rw [Patch.recording_apply rfl, Patch.empty_apply]
          · rw [Patch.recording_apply rfl, Patch.empty_apply]
      · exact hx.elim
      · exact hx.elim
      · obtain ⟨rfl, p, hc, hs, rfl, rfl⟩ := hx
        refine adopted (p := p.recording (key (.step ctx request.name))
          ⟨key (.request ctx request), .ok (Recorded.toValue v)⟩) hc.recording ?_ ?_ hr hr'
        · rw [Patch.recording_apply hs]
        · rw [Patch.recording_apply hs]

variable [Crates] {request request' : StepRequest}

def StepRequest.Finds (st st' : State κ) : StepRequest → Prop
  | commitArchive view _ => st'.views.lookup view.viewId = st.views.lookup view.viewId
  | commitRecall target _ => st'.recalls.lookup target.layoutId = st.recalls.lookup target.layoutId
  | _ => True

theorem perform_together {x y : HsmResult Reply} (hp : self.poisoned = false)
    (hp' : self'.poisoned = false) (hroot : self'.root = self.root)
    (coherent : self.state.Coherent self.root)
    (h : self.state.Unseen request.data.entity ctx.operationId self'.state)
    (finds : request.Finds self.state self'.state) (smooth : π.Smooth) (draws : π.Draws N)
    (hd : s.dir self.root = true) (hd' : t.dir self.root = true)
    (agrees : s.Agrees (self.state.Private self.root request.data.entity N)
      (· = layoutsDir self.root) N t)
    (hr : Runs (fsMachine π) (self.perform (.step ctx request)) s (x, self₁) s')
    (hr' : Runs (fsMachine π) (self'.perform (.step ctx request)) t (y, self₂) t') :
    x = y ∧ Together (self.state.Private self.root request.data.entity N)
      (· = layoutsDir self.root) N
      request.data.entity ctx.operationId self self' self₁ self₂ s s' t t' := by
  have apart : ∀ d, self.state.Private self.root request.data.entity N d ∨
    d = layoutsDir self.root →
      d ≠ self.root := by
    rintro d (hd | rfl)
    · exact hd.ne_root.1
    · simp [layoutsDir]
  have together : ∀ {α : Type} [Recorded α] {f : α → Reply} {effect : State κ → Io κ (α × State κ)},
      Io.Shared (self.state.Private self.root request.data.entity N) (· = layoutsDir self.root) N
        (Alters request.data.entity ctx.operationId N self.state self'.state)
        (effect self.state) (effect self'.state) →
      Runs (fsMachine π) (replying f (self.step ctx request effect)) s (x, self₁) s' →
      Runs (fsMachine π) (replying f (self'.step ctx request effect)) t (y, self₂) t' →
      x = y ∧ Together (self.state.Private self.root request.data.entity N)
        (· = layoutsDir self.root)
        N request.data.entity ctx.operationId self self' self₁ self₂ s s' t t' := by
    intro α _ f effect twin hr hr'
    obtain ⟨⟨a, _⟩, ha, he⟩ := Runs.of_map hr
    obtain ⟨⟨b, _⟩, hb, he'⟩ := Runs.of_map hr'
    cases he
    cases he'
    obtain ⟨rfl, ht⟩ := step_together hp hp' hroot h twin apart smooth draws hd hd' agrees ha hb
    exact ⟨rfl, ht⟩
  cases request with
  | prepareArchive data =>
    simp only [LocalStorage.perform, LocalStorage.performStep, LocalStorage.prepareArchive,
      hroot] at hr hr'
    exact together (shared_prepareArchive h) hr hr'
  | commitArchive view receipt =>
    exact together (shared_commitArchive h coherent finds) hr hr'
  | release expected =>
    simp only [LocalStorage.perform, LocalStorage.performStep,
      LocalStorage.release, hroot] at hr hr'
    exact together (shared_release h) hr hr'
  | prepareRecall expected anchor =>
    simp only [LocalStorage.perform, LocalStorage.performStep,
      LocalStorage.prepareRecall, hroot] at hr hr'
    exact together (shared_prepareRecall h) hr hr'
  | commitRecall target evidence =>
    simp only [LocalStorage.perform, LocalStorage.performStep,
      LocalStorage.commitRecall, hroot] at hr hr'
    exact together (shared_commitRecall h finds) hr hr'

/-! ## Different entities -/

variable {st : State κ} {i : String → Bool} {root : Dir}

omit [DecidableEq κ] [KeyHash κ] in
theorem State.Private.disjoint {entity' : EntityKey} {N' : String → Prop} {d : Dir}
    (h : st.Private root entity N d) (h' : st.Private root entity' N' d) (owned : st.Owned root i)
    (he : entity ≠ entity') (hN : ∀ u, N u → ¬ N' u) (new : ∀ u, N u ∨ N' u → i u = false) :
    False := by
  have live : ∀ {l}, l ∈ st.live → i l = true := fun hl =>
    owned.issued _ (Multiset.mem_add.mpr (.inl hl))
  have old : ∀ {u l}, N u ∨ N' u → layoutDir root u = layoutDir root l → l ∉ st.live := by
    intro u l hu hl hm
    have := new u hu
    rw [layoutDir_injective hl, live hm] at this
    cases this
  have published : ∀ {id e l}, st.entities.lookup id = some e →
    e.published = some l → l ∈ st.live :=
    fun hx hp => State.mem_live.mpr (.inl ⟨_, _, hx, hp⟩)
  have recalled : ∀ {l o}, st.recalls.lookup l = some o → l ∈ st.live := fun ho =>
    State.mem_live.mpr (.inr ⟨_, _, ho, (owned.coherent.recall _ _ ho).1⟩)
  have nodup := Multiset.nodup_add.mp (Multiset.nodup_add.mp owned.nodup).1
  have never : ∀ {id e l o}, st.entities.lookup id = some e → e.published = some l →
      st.recalls.lookup l = some o → False := by
    intro id e l o hx hp ho
    rw [(owned.published ⟨id, e, hx, hp⟩).1] at ho
    cases ho
  generalize hd : d = d' at h'
  cases h with
  | new hu =>
    cases h' with
    | new hu' => exact hN _ hu (layoutDir_injective hd ▸ hu')
    | published hx _ hp => exact old (.inl hu) hd (published hx hp)
    | recalled ho _ => exact old (.inl hu) hd (recalled ho)
  | published hx hk hp =>
    cases h' with
    | new hu' => exact old (.inr hu') hd.symm (published hx hp)
    | published hx' hk' hp' =>
      obtain rfl := layoutDir_injective hd
      have hid := Table.gather_key nodup.1 hx hp hx' hp'
      rw [hid, hx'] at hx
      cases hx
      exact he (hk.symm.trans hk')
    | recalled ho _ => exact never hx hp (layoutDir_injective hd ▸ ho)
  | recalled ho hk =>
    cases h' with
    | new hu' => exact old (.inr hu') hd.symm (recalled ho)
    | published hx _ hp => exact never hx hp (layoutDir_injective hd ▸ ho)
    | recalled ho' hk' =>
      rw [layoutDir_injective hd, ho'] at ho
      cases ho
      exact he (hk.symm.trans hk')

/-- The view or target that a request names has been returned by a prepare call. -/
def StepRequest.Genuine (π : Policy (FileName κ) (Content κ)) (root : Dir) (w : World κ) :
    StepRequest → Prop
  | commitArchive view _ => w.Returned π root (.view view)
  | commitRecall target _ => w.Returned π root (.target target)
  | _ => True

def StepRequest.Known (st : State κ) : StepRequest → Prop
  | commitArchive view _ => ∃ k f, st.steps.lookup k = some ⟨f, .ok (.view view)⟩
  | commitRecall target _ => ∃ k f, st.steps.lookup k = some ⟨f, .ok (.target target)⟩
  | _ => True

theorem StepRequest.Genuine.known {w : World κ} (h : request.Genuine π root w)
    (hw : w.handle = some self) : request.Known self.state := by
  cases request with
  | commitArchive view receipt => exact World.Returned.recorded h hw
  | commitRecall target evidence => exact World.Returned.recorded h hw
  | _ => trivial

omit [Crates] in
theorem State.Unseen.refl {op : String} (st : State κ) : st.Unseen entity op st :=
  ⟨rfl, rfl, fun _ => rfl, fun _ _ => Iff.rfl, fun _ _ => Iff.rfl, fun _ _ _ => rfl, rfl⟩

omit [DecidableEq κ] [KeyHash κ] [Crates] in
theorem StepRequest.Finds.refl (st : State κ) : request.Finds st st := by
  cases request <;> first | exact Eq.refl _ | trivial

omit [Crates] in
theorem StepRequest.Known.finds {op : String} {p : Patch κ} (h : request.Known st)
    (entered : st.Entered i) (hc : p.Confined entity op N st) (he : request.data.entity ≠ entity)
    (new : ∀ u, N u → i u = false) : request.Finds st (p.apply st) := by
  cases request with
  | commitArchive view receipt =>
    obtain ⟨k, f, hk⟩ := h
    obtain ⟨hi, ho⟩ := entered.view k f view hk
    refine hc.views.lookup (fun hn => ?_) fun o hl hm => he ?_
    · rw [new _ hn] at hi
      cases hi
    · rw [← hm, ho o hl]
      rfl
  | commitRecall target evidence =>
    obtain ⟨k, f, hk⟩ := h
    obtain ⟨hi, ho⟩ := entered.target k f target hk
    refine hc.recalls.lookup (fun hn => ?_) fun o hl hm => he ?_
    · rw [new _ hn] at hi
      cases hi
    · rw [← hm, ho o hl]
      rfl
  | _ => trivial

omit [DecidableEq κ] [KeyHash κ] [Crates] in
theorem State.Entered.unnamed [DecidableEq κ] (h : st.Entered i) (new : ∀ u, N u → i u = false) :
    st.Unnamed N := by
  intro u hu
  have fresh : ∀ {α : Type} {m : Table String α}, (∀ u o, m.lookup u = some o → i u = true) →
      m.lookup u = none := by
    intro α m hm
    cases hl : m.lookup u with
    | none => rfl
    | some o =>
      have := hm u o hl
      rw [new u hu] at this
      cases this
  exact ⟨fresh h.views, fresh h.recalls⟩

theorem Outcome.dir {r : Request} {x : HsmResult Reply} (h : Outcome π self r s x self₁ s') :
    s'.dir self.root = true := by
  have held : ∀ {v : Content κ}, s'.lookup self.root .state = some ⟨v, true⟩ →
      s'.dir self.root = true := fun hl => Disk.dir_of_lookup (n := .state) (by simp [hl])
  cases h with
  | kept _ hs _ => exact held hs.1
  | adopted _ hs _ => exact held hs.1
  | poisoned _ _ hb _ => exact hb.1.elim held held

/-! ## Two steps in either order -/

section

variable {ctx' : OperationContext} {NA NB : String → Prop} {πA πB : Policy (FileName κ) (Content κ)}
  {x y x' y' : HsmResult Reply} {selfA selfB selfAB selfBA : LocalStorage κ}
  {sA sB sAB sBA : Disk (FileName κ) (Content κ)}

/-- A store and two operations on different entities, with names of their own. -/
structure Independent (store : LocalStorage κ) (s : Disk (FileName κ) (Content κ))
    (ctx ctx' : OperationContext) (request request' : StepRequest)
    (NA NB : String → Prop) : Prop where
  injective : Function.Injective (key : Keyed → κ)
  healthy : store.poisoned = false
  safe : s.Safe store.root .state (.state store.state)
  owned : store.state.Owned store.root s.issued
  entered : store.state.Entered s.issued
  known : request.Known store.state
  known' : request'.Known store.state
  operation : ctx.operationId ≠ ctx'.operationId
  entity : request.data.entity ≠ request'.data.entity
  apart : ∀ u, NA u → ¬ NB u
  new : ∀ u, NA u ∨ NB u → s.issued u = false

namespace Independent

theorem symm (h : Independent self s ctx ctx' request request' NA NB) :
    Independent self s ctx' ctx request' request NB NA :=
  ⟨h.injective, h.healthy, h.safe, h.owned, h.entered, h.known', h.known, h.operation.symm,
    h.entity.symm, fun u hB hA => h.apart u hA hB, fun u hu => h.new u hu.symm⟩

theorem dir (h : Independent self s ctx ctx' request request' NA NB) : s.dir self.root = true :=
  Disk.dir_of_lookup (n := .state) (by simp [h.safe.1])

theorem disjoint (h : Independent self s ctx ctx' request request' NA NB) {d : Dir}
    (hA : self.state.Private self.root request.data.entity NA d)
    (hB : self.state.Private self.root request'.data.entity NB d) : False :=
  hA.disjoint hB h.owned h.entity h.apart h.new

/-- The second step does what it would have done without the first. -/
theorem second (h : Independent self s ctx ctx' request request' NA NB) (smoothA : πA.Smooth)
    (drawsA : πA.Draws NA) (smoothB : πB.Smooth) (drawsB : πB.Draws NB)
    (hA : Runs (fsMachine πA) (self.perform (.step ctx request)) s (x, selfA) sA)
    (hB : Runs (fsMachine πB) (self.perform (.step ctx' request')) s (y, selfB) sB)
    (hAB : Runs (fsMachine πB) (selfA.perform (.step ctx' request')) sA (y', selfAB) sAB) :
    y = y' ∧ Together (self.state.Private self.root request'.data.entity NB)
      (· = layoutsDir self.root) NB request'.data.entity ctx'.operationId self selfA selfB selfAB
      s sB sA sAB := by
  obtain ⟨-, alone⟩ := perform_together h.healthy h.healthy rfl h.owned.coherent (.refl _) (.refl _)
    smoothA drawsA h.dir h.dir (.refl s) hA hA
  obtain ⟨p, hc, rfl, -⟩ := alone.patch
  have newA : ∀ u, NA u → s.issued u = false := fun u hu => h.new u (.inl hu)
  have unseen := hc.unseen h.injective h.entity.symm h.operation.symm (h.entered.unnamed newA)
  have finds := h.known'.finds h.entered hc h.entity.symm newA
  have agrees : s.Agrees (self.state.Private self.root request'.data.entity NB)
      (· = layoutsDir self.root) NB sA := by
    refine alone.outside.mono ?_ ?_ fun u hB hA => h.apart u hA hB
    · rintro d hB (hA | rfl)
      · exact h.disjoint hA hB
      · exact hB.ne_root.1 rfl
    · rintro _ rfl
      refine .inl ?_
      rintro (hA | hr)
      · exact hA.ne_root.2 rfl
      · simp [layoutsDir] at hr
  have dirA := (perform_runs h.healthy h.safe hA).dir
  exact perform_together h.healthy h.healthy rfl h.owned.coherent unseen finds smoothB drawsB h.dir
    dirA agrees hB hAB

end Independent

/-- The same handle and the same disk, but for the order in which layouts are up for removal. -/
structure LocalStorage.Ends (a b : LocalStorage κ) (s t : Disk (FileName κ) (Content κ)) :
    Prop where
  root : b.root = a.root
  poisoned : b.poisoned = a.poisoned
  state : a.state.Like b.state
  disk : s.Agrees (· ≠ a.root) (fun _ => False) (fun _ => False) t
  file : s = t ∨ s.Safe a.root .state (.state a.state) ∧ t.Safe a.root .state (.state b.state)

theorem Independent.commute (h : Independent self s ctx ctx' request request' NA NB)
    (smoothA : πA.Smooth) (drawsA : πA.Draws NA) (smoothB : πB.Smooth) (drawsB : πB.Draws NB)
    (hA : Runs (fsMachine πA) (self.perform (.step ctx request)) s (x, selfA) sA)
    (hAB : Runs (fsMachine πB) (selfA.perform (.step ctx' request')) sA (y, selfAB) sAB)
    (hB : Runs (fsMachine πB) (self.perform (.step ctx' request')) s (y', selfB) sB)
    (hBA : Runs (fsMachine πA) (selfB.perform (.step ctx request)) sB (x', selfBA) sBA) :
    x = x' ∧ y = y' ∧ selfAB.Ends selfBA sAB sBA := by
  obtain ⟨hy, tB⟩ := h.second smoothA drawsA smoothB drawsB hA hB hAB
  obtain ⟨hx, tA⟩ := h.symm.second smoothB drawsB smoothA drawsA hB hA hBA
  refine ⟨hx, hy.symm, ?_⟩
  have disk : sAB.Agrees (· ≠ self.root) (fun _ => False) (fun _ => False) sBA := by
    refine .of_each fun d hd => ?_
    have only : ∀ {P Q : Dir → Prop} {N : String → Prop} {s t : Disk (FileName κ) (Content κ)},
        s.Agrees P Q N t → P d → s.Agrees (· = d) (fun _ => False) (fun _ => False) t :=
      fun ha hp => ha.mono (fun _ he => he ▸ hp) (fun _ => False.elim) fun _ => False.elim
    by_cases inA : self.state.Private self.root request.data.entity NA d
    · have outB : ¬ (self.state.Private self.root request'.data.entity NB d ∨ d = self.root) :=
        fun hB => hB.elim (h.disjoint inA) hd
      exact (only tB.outside' outB).symm.trans (only tA.agrees inA)
    · have outA : ¬ (self.state.Private self.root request.data.entity NA d ∨ d = self.root) :=
        fun hA => hA.elim inA hd
      by_cases inB : self.state.Private self.root request'.data.entity NB d
      · exact (only tB.agrees inB).symm.trans (only tA.outside' outA)
      · have outB : ¬ (self.state.Private self.root request'.data.entity NB d ∨ d = self.root) :=
          fun hB => hB.elim inB hd
        exact ((only tA.outside outA).trans (only tB.outside' outB)).symm.trans
          ((only tB.outside outB).trans (only tA.outside' outA))
  obtain ⟨pA, cA, rfl, rfl⟩ := tA.patch
  obtain ⟨pB, cB, rfl, rfl⟩ := tB.patch
  have like := cA.comm cB h.injective h.entity h.operation h.apart (h.entered.unnamed h.new)
  have safe : ∀ {r : Request} {π : Policy (FileName κ) (Content κ)} {self self' : LocalStorage κ}
      {s s' : Disk (FileName κ) (Content κ)} {x : HsmResult Reply},
      Runs (fsMachine π) (self.perform r) s (x, self') s' → self.poisoned = false →
      self'.poisoned = false → s.Safe self.root .state (.state self.state) →
      s'.Safe self.root .state (.state self'.state) := by
    intro r π self self' s s' x hr hp hp' hs
    cases perform_runs hp hs hr with
    | kept _ hs _ => exact hs
    | adopted _ hs _ => exact hs
    | poisoned => cases hp'
  have safeA := safe hA h.healthy h.healthy h.safe
  have safeB := safe hB h.healthy h.healthy h.safe
  have safeAB := safe hAB h.healthy h.healthy safeA
  have safeBA := safe hBA h.healthy h.healthy safeB
  exact ⟨rfl, rfl, like, disk, .inr ⟨safeAB, safeBA⟩⟩

end

/-! ## What a step leaves alone -/

/-- What is stored for the entity has not changed. -/
structure State.Untouched (k : EntityKey) (st st' : State κ) : Prop where
  entity : st.Owns k → st'.entities.lookup k.entity = st.entities.lookup k.entity
  view : ∀ u o, o.view.data.entity = k → (st'.views.lookup u = some o ↔ st.views.lookup u = some o)
  «recall» : ∀ u o, o.target.data.entity = k →
    (st'.recalls.lookup u = some o ↔ st.recalls.lookup u = some o)

omit [DecidableEq κ] [KeyHash κ] [Crates] in
theorem State.Untouched.refl (st : State κ) : st.Untouched entity st :=
  ⟨fun _ => rfl, fun _ _ _ => Iff.rfl, fun _ _ _ => Iff.rfl⟩

omit [Crates] in
theorem Patch.Confined.untouched {entity' : EntityKey} {op : String} {p : Patch κ}
    (h : p.Confined entity' op N st) (he : entity ≠ entity') (new : st.Unnamed N) :
    st.Untouched entity (p.apply st) where
  entity owns := Table.lookup_edit_of_not fun hk => by
    obtain ⟨hid, owns'⟩ := h.entities _ hk
    exact he (owns.key_eq owns' hid)
  view u o ho := h.views.lookup_iff (fun k hk => (new k hk).1) fun hv => he (ho.symm.trans hv)
  «recall» u o ho := h.recalls.lookup_iff (fun k hk => (new k hk).2) fun hr => he (ho.symm.trans hr)

/-- An effect is a patch that is about its entity and its operation. -/
theorem Effect.confined {value : StepValue} {next : State κ}
    (h : Effect root N st ctx request value next) :
    ∃ p : Patch κ, p.Confined request.data.entity ctx.operationId N st ∧ next = p.apply st := by
  have none : ∀ {α β : Type} {k : α} {P : Prop}, Table.Edits (none : Option (α × Option β)) k → P :=
    fun hk => (Table.not_edits hk).elim
  cases h with
  | @prepareArchive view _ _ _ _ hu =>
    refine ⟨⟨.none, some (view.viewId, some ⟨ctx, view⟩), .none, .none, .none, []⟩,
      ⟨fun _ => none, .store hu rfl, .keep, fun _ => none, fun _ => none⟩, ?_⟩
    simp [Patch.apply, Table.edit]
  | @commitArchive view receipt e hl he =>
    have owns := (State.entity_eq_ok.mp he).1
    refine ⟨⟨some (view.data.entity.entity, some { e with «public» := e.public.attached receipt }),
      some (view.viewId, .none), .none, .none, some (ctx.operationId, some ⟨ctx, view.data,
        .archive receipt.key, e.public.attached receipt⟩), []⟩,
      ⟨fun _ hk => ⟨Table.edits_iff.mp hk, owns⟩, .drop hl rfl, .keep, fun _ => none,
        fun _ => Table.edits_iff.mp⟩, ?_⟩
    simp [Patch.apply, Table.edit]
  | @release e layout he =>
    have owns := (State.entity_eq_ok.mp he).1
    refine ⟨⟨some (e.public.data.entity.entity, some ⟨e.public.released, .none⟩),
      .none, .none, .none,
      some (ctx.operationId, some ⟨ctx, e.public.data, .release, e.public.released⟩), [layout]⟩,
      ⟨fun _ hk => ⟨Table.edits_iff.mp hk, owns⟩, .keep, .keep, fun _ => none,
        fun _ => Table.edits_iff.mp⟩, ?_⟩
    simp [Patch.apply, Table.edit]
  | @prepareRecall e anchor layout _ _ _ hu =>
    refine ⟨⟨.none, .none, some (layout, some ⟨ctx, ⟨e.public.data, layout, anchor.key,
      endpoint (layoutDir root layout)⟩, anchor⟩), .none, .none, []⟩,
      ⟨fun _ => none, .keep, .store hu rfl, fun _ => none, fun _ => none⟩, ?_⟩
    simp [Patch.apply, Table.edit]
  | @commitRecall target anchor e hl he =>
    have owns := (State.entity_eq_ok.mp he).1
    refine ⟨⟨some (target.data.entity.entity, some ⟨e.public.recalled, some target.layoutId⟩),
      .none,
      some (target.layoutId, .none), .none, some (ctx.operationId, some ⟨ctx, target.data,
        .«recall» target.archive, e.public.recalled⟩), []⟩,
      ⟨fun _ hk => ⟨Table.edits_iff.mp hk, owns⟩, .keep, .drop hl rfl, fun _ => none,
        fun _ => Table.edits_iff.mp⟩, ?_⟩
    simp [Patch.apply, Table.edit]

theorem Settles.untouched {x : HsmResult Reply} {next : State κ} (entered : st.Entered i)
    {i' : String → Bool} (hπ : π.Fresh)
    (h : Settles root (Given π i i') st (.step ctx request) x (some next))
    (he : entity ≠ request.data.entity) : st.Untouched entity next := by
  have unnamed : st.Unnamed (Given π i i') := entered.unnamed fun u hu => hu.unissued hπ
  cases h with
  | failed => exact ⟨fun _ => rfl, fun _ _ _ => Iff.rfl, fun _ _ _ => Iff.rfl⟩
  | done _ _ hx =>
    obtain ⟨p, hc, rfl⟩ := hx.confined
    obtain ⟨h₁, h₂, h₃⟩ := hc.untouched he unnamed
    exact ⟨h₁, h₂, h₃⟩

theorem Outcome.reads {r : Request} {x : HsmResult Reply} (h : Outcome π self r s x self₁ s')
    (owned : self.state.Owned self.root i) {l : String} (hp : self.state.Publishes l)
    (hd : s.dir (layoutDir self.root l) = true) {n : FileName κ} (hn : n = .data ∨ n = .sealed) :
    s'.reads (layoutDir self.root l) n = s.reads (layoutDir self.root l) n := by
  obtain ⟨hr, hg⟩ := owned.published hp
  have kept : Frame (Shown self.root self.state s) s s' := by
    cases h with
    | kept _ _ hl => exact hl.frame
    | adopted _ _ hl => exact hl.frame
    | poisoned _ _ _ hl => exact hl.frame
  exact kept.reads (.content hp hr hg hd hn)

/-- No version of the metadata after a step has changed what belongs to another entity. -/
theorem Outcome.untouched {x : HsmResult Reply}
    (h : Outcome π self (.step ctx request) s x self₁ s')
    (entered : self.state.Entered s.issued) (hπ : π.Fresh) (he : entity ≠ request.data.entity)
    (hv : World.Version self.root ⟨s', some self₁⟩ st) : self.state.Untouched entity st := by
  have found : ∀ {st' : State κ} {f : Option (File (Content κ))} {b : Bool},
      f = some ⟨.state st, b⟩ → f = some ⟨.state st', true⟩ → st' = st := by
    rintro st' f b rfl hf
    cases hf
    rfl
  have old : self.state = st → self.state.Untouched entity st := fun h => h ▸ .refl _
  cases h with
  | kept _ hs _ =>
    cases hv with
    | cached hw hst =>
      cases hw
      exact old hst
    | visible hl => exact old (found hl hs.1)
    | safe hl => exact old (found hl hs.2)
  | @adopted _ next _ ha hs _ =>
    have new : next = st → self.state.Untouched entity st := fun h =>
      h ▸ ha.untouched entered hπ he
    cases hv with
    | cached hw hst =>
      cases hw
      exact new hst
    | visible hl => exact new (found hl hs.1)
    | safe hl => exact new (found hl hs.2)
  | @poisoned _ next _ _ ha _ hb _ =>
    have new : next = st → self.state.Untouched entity st := fun h =>
      h ▸ ha.untouched entered hπ he
    cases hv with
    | cached hw hst =>
      cases hw
      exact old hst
    | visible hl => exact hb.1.elim (fun h => old (found hl h)) fun h => new (found hl h)
    | safe hl => exact hb.2.elim (fun h => old (found hl h)) fun h => new (found hl h)

/-- Protected steps of different operations on different entities, given names of their own and
no faults, answer the same in either order and leave the same behind, and every step leaves alone
what belongs to other entities. -/
theorem steps_commute {w : World κ} (inj : Function.Injective (key : Keyed → κ)) (hπ : π.Fresh)
    (h : w.Reachable π root) (hw : w.handle = some self) :
    (∀ (ctx ctx' : OperationContext) (request request' : StepRequest),
      ctx.operationId ≠ ctx'.operationId → request.data.entity ≠ request'.data.entity →
      request.Genuine π root w → request'.Genuine π root w →
      ∀ (NA NB : String → Prop) (πA πB : Policy (FileName κ) (Content κ)), πA.Smooth → πA.Draws NA →
      πB.Smooth → πB.Draws NB → (∀ u, NA u → ¬ NB u) →
        (∀ u, NA u ∨ NB u → w.disk.issued u = false) →
      ∀ x y selfA selfAB sA sAB x' y' selfB selfBA sB sBA,
        Runs (fsMachine πA) (self.perform (.step ctx request)) w.disk (x, selfA) sA →
        Runs (fsMachine πB) (selfA.perform (.step ctx' request')) sA (y, selfAB) sAB →
        Runs (fsMachine πB) (self.perform (.step ctx' request')) w.disk (y', selfB) sB →
        Runs (fsMachine πA) (selfB.perform (.step ctx request)) sB (x', selfBA) sBA →
        x = x' ∧ y = y' ∧ selfAB.Ends selfBA sAB sBA) ∧
    ∀ ctx request x self' s',
      Runs (fsMachine π) (self.perform (.step ctx request)) w.disk (x, self') s' →
      (∀ k, k ≠ request.data.entity → self.state.Untouched k self'.state ∧
        (self.poisoned = false → ∀ st, World.Version root ⟨s', some self'⟩ st →
          self.state.Untouched k st)) ∧
      ∀ l n, self.state.Publishes l → w.disk.dir (layoutDir root l) = true →
        n = .data ∨ n = .sealed →
        s'.reads (layoutDir root l) n = w.disk.reads (layoutDir root l) n := by
  obtain ⟨s, handle⟩ := w
  obtain rfl : handle = some self := hw
  have owned := (h.owned hπ).cached self rfl
  have entered := (h.entered hπ).cached self rfl
  obtain rfl := (h.owned hπ).root_eq self rfl
  by_cases hp : self.poisoned = true
  · refine ⟨?_, ?_⟩
    · intro ctx ctx' request request' _ _ _ _ NA NB πA πB _ _ _ _ _ _ x y selfA selfAB sA sAB x' y'
        selfB selfBA sB sBA hA hAB hB hBA
      rw [perform_poisoned hp, Runs.ret_iff] at hA hB
      obtain ⟨hA, rfl⟩ := hA
      obtain ⟨hB, rfl⟩ := hB
      cases hA
      cases hB
      rw [perform_poisoned hp, Runs.ret_iff] at hAB hBA
      obtain ⟨hAB, rfl⟩ := hAB
      obtain ⟨hBA, rfl⟩ := hBA
      cases hAB
      cases hBA
      exact ⟨rfl, rfl, rfl, rfl, ⟨rfl, .refl _⟩, .refl _, .inl rfl⟩
    · intro ctx request x self' s' hr
      rw [perform_poisoned hp, Runs.ret_iff] at hr
      obtain ⟨hr, rfl⟩ := hr
      cases hr
      exact ⟨fun k _ => ⟨.refl _, fun hn => by simp [hp] at hn⟩, fun _ _ _ _ _ => rfl⟩
  have hp : self.poisoned = false := by simpa using hp
  have safe := (h.owned hπ).safe self rfl hp
  refine ⟨?_, ?_⟩
  · intro ctx ctx' request request' hop he hg hg' NA NB πA πB smoothA drawsA
      smoothB drawsB apart new
      x y selfA selfAB sA sAB x' y' selfB selfBA sB sBA hA hAB hB hBA
    have independent : Independent self s ctx ctx' request request' NA NB :=
      ⟨inj, hp, safe, owned, entered, hg.known rfl, hg'.known rfl, hop, he, apart, new⟩
    exact independent.commute smoothA drawsA smoothB drawsB hA hAB hB hBA
  · intro ctx request x self' s' hr
    have ho := perform_runs hp safe hr
    exact ⟨fun k hk => ⟨ho.untouched entered hπ hk (.cached rfl rfl),
      fun _ st hv => ho.untouched entered hπ hk hv⟩, fun l n hl hd hn => ho.reads owned hl hd hn⟩

end

/-! ## Two entities -/

namespace Reference

open LocalStorage

def other : DataKey := ⟨⟨"store", "ns", "f"⟩, 1⟩

def archiving : Request := .step ⟨"archive", 1, 1⟩ (.commitArchive view receipt)

def pinning : Request := .step ⟨"pin", 1, 1⟩ (.prepareArchive other)

def paired : Option (World Keyed) :=
  (World.enter ["s"] ["store", "ns", "t1"] ["u0", "t2", "t3", "u1", "t4", "t5", "v",
    "t6", "t7", "w", "t8"]
    blank).bind <| World.rehearse ["v", "t6", "t7", "w", "t8"]
      [(.import "e" [0], ["u0", "t2", "t3"]), (.import "f" [1], ["u1", "t4", "t5"])]

def viewed :
    Option ((HsmResult Reply × LocalStorage Keyed) × Disk (FileName Keyed) (Content Keyed)) :=
  paired.bind fun w => w.handle.bind fun self =>
    (self.perform (.step ⟨"archive", 1, 1⟩ (.prepareArchive content))).trial
      ["t7", "w", "t8"] ["v", "t6"]
      w.disk

theorem viewed_reachable : ∃ self s, viewed = some ((.ok (.value (.view view)), self), s) ∧
    World.Reachable anything ["s"] ⟨s, some self⟩ ∧
    World.Returned anything ["s"] ⟨s, some self⟩ (.view view) ∧
    ∀ u ∈ ["t7", "w", "t8"], s.Unused u := by
  have answered : viewed.map (fun r => r.1.1.toOption) = some (some (.value (.view view))) := by
    decide +kernel
  obtain ⟨⟨⟨x, self⟩, s⟩, hv, hx⟩ := Option.map_eq_some_iff.mp answered
  obtain rfl : x = .ok (.value (.view view)) := by
    cases x with
    | error e => cases hx
    | ok y => exact congrArg _ (Option.some.inj hx)
  have hv' := hv
  obtain ⟨⟨s₀, handle⟩, hw, hv'⟩ := Option.bind_eq_some_iff.mp hv'
  obtain ⟨self₀, hself, ht⟩ := Option.bind_eq_some_iff.mp hv'
  obtain rfl : handle = some self₀ := hself
  obtain ⟨w₀, h₀, h₁⟩ := Option.bind_eq_some_iff.mp hw
  obtain ⟨hr₀, unused₀⟩ := World.enter_reachable anything_generous.offers rfl rfl (by decide)
    (fun u hu => blank_unused (by rintro rfl; revert hu; decide)
      (by rintro rfl; revert hu; decide)) h₀
  have rehearsed : World.Steps anything ["s"] w₀ ⟨s₀, some self₀⟩ ∧
      ∀ u ∈ ["v", "t6", "t7", "w", "t8"], s₀.Unused u :=
    World.rehearse_steps anything_generous.offers h₁ (by decide) unused₀
  obtain ⟨hr, left⟩ := Prog.trial_offered anything_generous.offers (by decide) rehearsed.2 ht
  have reachable := hr₀.steps rehearsed.1
  exact ⟨self, s, hv, reachable.steps (.single (.call hr)),
    ⟨_, self₀, self, s, _, _, reachable, rfl, hr, .refl⟩, left⟩

def inOrder (first second : Request × List String) (self : LocalStorage Keyed)
    (s : Disk (FileName Keyed) (Content Keyed)) :
    Option ((HsmResult Reply × HsmResult Reply) × LocalStorage Keyed × Disk (FileName Keyed)
      (Content Keyed)) :=
  ((self.perform first.1).trial second.2 first.2 s).bind fun r =>
    ((r.1.2.perform second.1).trial [] second.2 r.2).map fun r' => ((r.1.1, r'.1.1), r'.1.2, r'.2)

theorem inOrder_runs {first second : Request × List String} {self : LocalStorage Keyed}
    {s : Disk (FileName Keyed) (Content Keyed)} (h : (inOrder first second self s).isSome)
    (nodup : (first.2 ++ second.2).Nodup) (unused : ∀ u ∈ first.2 ++ second.2, s.Unused u) :
    ∃ x y self₁ self₂ s₁ s₂, inOrder first second self s = some ((x, y), self₂, s₂) ∧
      Runs (fsMachine (drawing first.2)) (self.perform first.1) s (x, self₁) s₁ ∧
      Runs (fsMachine (drawing second.2)) (self₁.perform second.1) s₁ (y, self₂) s₂ := by
  obtain ⟨z, hz⟩ := Option.isSome_iff_exists.mp h
  have hz' := hz
  obtain ⟨⟨⟨x, self₁⟩, s₁⟩, h₁, hm⟩ := Option.bind_eq_some_iff.mp hz'
  obtain ⟨⟨⟨y, self₂⟩, s₂⟩, h₂, rfl⟩ := Option.map_eq_some_iff.mp hm
  obtain ⟨hr₁, left⟩ := Prog.trial_runs nodup unused h₁
  have nodup₂ : (second.2 ++ []).Nodup := by simpa using (List.nodup_append.mp nodup).2.1
  have hr₂ := Prog.trial_runs nodup₂ (by simpa using left) h₂
  exact ⟨x, y, self₁, self₂, s₁, s₂, hz, hr₁, hr₂.1⟩

/-- An entity is archived and another one pinned, in either order. -/
theorem steps_commute_archiving : ∃ w self x y selfAB selfBA sAB sBA,
    World.Reachable anything ["s"] w ∧ w.handle = some self ∧
    inOrder (archiving, ["t7"]) (pinning, ["w", "t8"]) self w.disk = some ((x, y), selfAB, sAB) ∧
    inOrder (pinning, ["w", "t8"]) (archiving, ["t7"]) self w.disk = some ((y, x), selfBA, sBA) ∧
    selfAB.Ends selfBA sAB sBA := by
  obtain ⟨self, s, hv, reachable, returned, unused⟩ := viewed_reachable
  have hab :
    viewed.map (fun r => (inOrder (archiving, ["t7"]) (pinning, ["w", "t8"]) r.1.2 r.2).isSome) =
      some true := by decide +kernel
  have hba :
    viewed.map (fun r => (inOrder (pinning, ["w", "t8"]) (archiving, ["t7"]) r.1.2 r.2).isSome) =
      some true := by decide +kernel
  rw [hv, Option.map_some, Option.some.injEq] at hab hba
  have unused' : ∀ u ∈ ["w", "t8"] ++ ["t7"], s.Unused u := fun u hu => unused u (by
    simp only [List.cons_append, List.nil_append, List.mem_cons, List.not_mem_nil, or_false] at hu ⊢
    tauto)
  obtain ⟨x, y, selfA, selfAB, sA, sAB, hAB, hA, hB⟩ := inOrder_runs hab (by decide) unused
  obtain ⟨y', x', selfB, selfBA, sB, sBA, hBA, hB', hA'⟩ := inOrder_runs hba (by decide) unused'
  obtain ⟨rfl, rfl, ends⟩ := (steps_commute key_injective anything_fresh reachable rfl).1
    ⟨"archive", 1, 1⟩ ⟨"pin", 1, 1⟩ (.commitArchive view receipt) (.prepareArchive other)
    (by decide) (by decide) returned trivial (· ∈ ["t7"]) (· ∈ ["w", "t8"]) _ _ drawing_smooth
    drawing_draws drawing_smooth drawing_draws (by decide)
    (fun u hu =>
      (unused u (by simp only [List.mem_cons, List.not_mem_nil, or_false] at hu ⊢; tauto)).issued)
    x y selfA selfAB sA sAB x' y' selfB selfBA sB sBA hA hB hB' hA'
  exact ⟨_, self, x, y, selfAB, selfBA, sAB, sBA, reachable, rfl, hAB, hBA, ends⟩

end Reference

end HsmRs
