import HsmRs.System.Archiving
import HsmRs.System.Effected

/-! # An archive that is tried until it answers

From every state that can be reached, an archive under a new operation and an unused key:
its process may die any number of times, and the next one begins the archive again. Along
the whole history it has one effect and publishes one receipt, and payloads that are sealed
stay as they are.
-/

namespace HsmRs

section

variable {κ : Type} {s s' s'' : Disk (FileName κ) (Content κ)}

/-! ## Sealed payloads -/

/-- Payloads that are sealed stay, and so do their seals. -/
def Seals (s s' : Disk (FileName κ) (Content κ)) : Prop :=
  ∀ d b, s.lookup d .sealed ≠ none → s.Holds d b → s'.lookup d .sealed ≠ none ∧ s'.Holds d b

namespace Seals

theorem refl (s : Disk (FileName κ) (Content κ)) : Seals s s := fun _ _ mark holds => ⟨mark, holds⟩

theorem trans (h : Seals s s') (h' : Seals s' s'') : Seals s s'' := fun d b mark holds =>
  have ⟨mark', holds'⟩ := h d b mark holds
  h' d b mark' holds'

theorem of_frame {K : Dir → FileName κ → Prop} (hf : Frame K s s')
    (data : ∀ d, s.lookup d .sealed ≠ none → K d .data)
    (mark : ∀ d, s.lookup d .sealed ≠ none → K d .sealed ∨ s'.lookup d .sealed ≠ none) :
    Seals s s' := by
  intro d b hm holds
  refine ⟨(mark d hm).elim (fun hk => ?_) id, holds.frame hf (data d hm)⟩
  obtain ⟨⟨c, x⟩, hl⟩ := Option.ne_none_iff_exists'.mp hm
  obtain ⟨y, hy⟩ := hf.still hk ⟨x, hl⟩
  simp [hy]

theorem of_named (hf : Frame Named s s') : Seals s s' :=
  .of_frame hf (fun _ _ => id) fun _ _ => .inl id

theorem of_but {d : Dir} {n : FileName κ} (hf : Frame (NamedBut d n) s s') (data : n ≠ .data)
    (mark : n ≠ .sealed) : Seals s s' :=
  .of_frame hf (fun _ _ => ⟨id, fun h => data h.2.symm⟩)
    fun _ _ => .inl ⟨id, fun h => mark h.2.symm⟩

variable [Crates]

theorem of_commits [KeyHash κ] {a : LocalArchive} {ctx : OperationContext}
    {target : ArchiveTarget} {view : DataView} (h : a.Commits ctx target view s s') :
    Seals s s' := by
  rcases h with hf | ⟨-, -, payload, -, hf | hs | hp⟩
  · exact .of_named hf
  · exact .of_named hf
  · refine .of_frame hs.others (fun _ _ => ⟨id, by simp⟩) fun d _ => ?_
    by_cases hd : d = payload
    · obtain ⟨v, placed⟩ := hs.mark
      exact .inr (hd ▸ by simp [placed.now])
    · exact .inl ⟨id, fun h => hd h.1⟩
  · refine .of_frame hp.others (fun _ _ => ⟨⟨id, by simp⟩, id, by simp [LocalArchive.receiptName]⟩)
      fun d _ => ?_
    by_cases hd : d = payload
    · obtain ⟨v, safe⟩ := hp.mark
      exact .inr (hd ▸ by simp [safe.1])
    · exact .inl ⟨⟨id, fun h => hd h.1⟩, id,
        by simp [LocalArchive.receiptName]⟩

theorem of_moves [KeyHash κ] {a : LocalArchive} {c : BackendCall} (h : a.Moves s s' c) :
    Seals s s' := by
  cases h with
  | still hf => exact .of_named hf
  | prepared ha =>
    exact .of_but ha.placed.others (by simp [LocalArchive.preparedPath])
      (by simp [LocalArchive.preparedPath])
  | resumed hc => exact .of_commits hc
  | committed hc => exact .of_commits hc

theorem of_copies {destination : DataEndpoint} (h : Copies destination s s') : Seals s s' := by
  rcases h with hf | ⟨e, -, unsealed, hf⟩
  · exact .of_named hf
  · refine .of_frame hf (fun d hm => ⟨id, fun h => hm (h.1 ▸ unsealed)⟩)
      fun d _ => .inl ⟨id, by simp⟩

end Seals

variable [DecidableEq κ] [KeyHash κ] [Crates] {π₀ π : Policy (FileName κ) (Content κ)}
  {roots : Roots} {id : String} {c : EngineCall} {l : Live κ} {sys sys' : System κ}
  {p : Prog (LocalSig κ) (Live κ × List (String × Bytes))}

/-- Only the commit of a recall writes in a layout. -/
theorem Live.Tries.seals (h : Live.Tries roots id c l p) (tree : s.Tree)
    (calls : ∀ p after, l.engines = p :: after → p.Within c.Asks)
    (tame : ∀ ctx target evidence, ¬ c.Asks (.storage (.commitRecall ctx target evidence))) :
    (∀ x s', Runs (fsMachine π) p s x s' → Seals s s') ∧
      ∀ s', Cuts (fsMachine π) p s s' → Seals s s' := by
  have but : ∀ {d : Dir} {s'}, Frame (NamedBut d .state) s s' → Seals s s' := fun hf =>
    .of_but hf nofun nofun
  cases h with
  | storage =>
    have spares : (LocalStorage.open roots.storage : Io κ _).run.Within
        (FsOp.Spares (NamedBut roots.storage .state)) :=
      LocalStorage.spares_open (fun _ _ h => h.1) fun h => h.2 ⟨rfl, rfl⟩
    refine ⟨fun x s' hr => ?_, fun s' hc => but (hc.of_map.frame spares)⟩
    obtain ⟨_, hx, -⟩ := hr.of_map
    exact but (hx.frame spares)
  | archive =>
    have opens : ∀ {s'}, LocalArchive.Opening roots.archive id s s' → Seals s s' := fun h =>
      .of_but h.others nofun nofun
    refine ⟨fun x s' hr => ?_, fun s' hc => opens ((open_opening tree).1 _ hc.of_map)⟩
    obtain ⟨_, hx, -⟩ := hr.of_map
    exact opens ((open_opening tree).2 _ _ hx).1
  | begins =>
    refine ⟨fun x s' hr => ?_, fun s' hc => ?_⟩
    · cases hr
      exact .refl s
    · cases hc
      exact .refl s
  | @calls self archive o k after =>
    obtain ⟨asks, -⟩ := calls _ _ rfl
    cases o with
    | storage sc =>
      have spares : ((⟨self, archive⟩ : Stores κ).storageCall sc).Within
          (FsOp.Spares (NamedBut self.root .state)) :=
        LocalStorage.spares_storageCall (fun _ _ h => h.1) (fun h => h.2 ⟨rfl, rfl⟩)
          fun _ _ _ he => (tame _ _ _ (he ▸ asks)).elim
      refine ⟨fun x s' hr => ?_, fun s' hc => but (hc.of_map.frame spares)⟩
      obtain ⟨_, hx, -⟩ := hr.of_map
      exact but (hx.frame spares)
    | backend b =>
      refine ⟨fun x s' hr => ?_, fun s' hc =>
        .of_moves (LocalArchive.backendCall_cuts (backend_cuts hc.of_map))⟩
      obtain ⟨⟨y, t⟩, hx, -⟩ := hr.of_map
      exact .of_moves (LocalArchive.backendCall_runs (backend_runs hx).2).1
    | copy ctx source destination =>
      refine ⟨fun x s' hr => ?_, fun s' hc => .of_copies (copy_cuts hc.of_map)⟩
      obtain ⟨⟨y, t⟩, hx, -⟩ := hr.of_map
      exact .of_copies (copy_runs hx).2.1

theorem System.Tries.seals (h : System.Tries π roots id c sys sys') (tree : sys.disk.Tree)
    (calls : ∀ p after, sys.live.engines = p :: after → p.Within c.Asks)
    (tame : ∀ ctx target evidence, ¬ c.Asks (.storage (.commitRecall ctx target evidence))) :
    Seals sys.disk sys'.disk := by
  have rebooted : ∀ s : Disk (FileName κ) (Content κ), Seals s s.reboot := fun s =>
    .of_named (Disk.frame_reboot s)
  cases h with
  | goes h =>
    cases h with
    | acts hl hr => exact (hl.seals tree calls tame).1 _ _ hr
  | dies hl hc => exact ((hl.seals tree calls tame).2 _ hc).trans (rebooted _)
  | falls => exact rebooted _

/-! ## The archive -/

/-- The content is published and not pinned, and a new operation can archive it under a key of the
backend that is unused. -/
structure Stores.Archivable (stores : Stores κ) (ctx : OperationContext) (data : DataKey)
    (place : ArchiveKey) (e : Entity) (s : Disk (FileName κ) (Content κ)) : Prop where
  qualified : LocalStorage.qualify ctx = .ok ()
  current : stores.storage.state.entity data = .ok e
  published : e.published ≠ none
  unpinned : ¬ stores.storage.state.views.Any (fun v => v.view.data = data)
  unused : stores.storage.state.Unused ctx.operationId
  vacant : stores.archive.Vacant ctx place s

variable {self : LocalStorage κ} {archive : LocalArchive} {ctx : OperationContext} {data : DataKey}
  {place : ArchiveKey} {e : Entity}

theorem System.Ready.archival (ready : sys.Ready π₀ roots self archive)
    (h : Stores.Archivable ⟨self, archive⟩ ctx data place e sys.disk) :
    ∃ w : Archival, w.roots = roots ∧ w.archive = archive ∧ w.ctx = ctx ∧ w.data = data ∧
      w.place = place ∧ w.entity = e ∧ w.errand.Running ⟨self, archive⟩ sys.disk := by
  have serving := ready.serving
  have safe := ready.safe
  have orderly := ready.orderly
  have hroot : archive.root = roots.archive := serving.root'
  obtain ⟨layout, published⟩ := Option.ne_none_iff_exists'.mp h.published
  obtain ⟨-, he, hd⟩ := State.entity_eq_ok.mp h.current
  have stands := safe.stands _ e he
  obtain ⟨b, holds, length, digest⟩ := (stands.layout layout published).holds
  have free : ∀ a ∈ e.public.anchors, a.key ≠ place := by
    rintro a ha rfl
    obtain ⟨u, b, enduring⟩ := stands.anchors a ha
    have absent := h.vacant.absent
    rw [show objectsDir _ = objectsDir roots.archive from congrArg objectsDir hroot,
      enduring.object.1] at absent
    cases absent
  have unrecalled : ¬ self.state.recalls.Any (fun r => r.target.data = data) := by
    rw [Table.not_any_iff]
    intro l o ho hr
    exact orderly.coherent.not_reserved he h.published ho (by rw [hr])
  have eq : (⟨roots.archive, archive.id⟩ : LocalArchive) = archive := by rw [← hroot]
  refine ⟨⟨roots, archive.id, ctx, data, place, e, layout, b, ready.named, h.qualified, published,
    length, digest, free⟩, rfl, eq, rfl, rfl, rfl, rfl, serving, rfl, holds, .inl (.fresh ?_ ?_ ?_)⟩
  · exact ⟨h.current, h.unpinned, unrecalled⟩
  · exact h.unused
  · rw [Archival.archive, eq]
    exact h.vacant

/-- The archive has answered well: its receipt is attached. -/
def Archival.Done (w : Archival) (x : HsmResult EntityState × Stores κ)
    (s : Disk (FileName κ) (Content κ)) : Prop :=
  ∃ receipt, x.1 = .ok (w.entity.public.attached receipt) ∧ w.errand.Running x.2 s ∧
    w.Finished receipt x.2.storage.state s

theorem Archival.lasts {w : Archival} (inj : Function.Injective (key : Keyed → κ)) (kind : π.Kind)
    (stores : Stores κ) (s : Disk (FileName κ) (Content κ)) (h : w.errand.Running stores s) :
    ((EngineCall.archive w.ctx w.data w.place).workflow.locally stores).wp (fsMachine π)
      w.errand.Paused w.Done s := by
  refine Prog.wp_mono (endures_tried.mp (archive_endures inj kind h)) (fun _ h => h) ?_
  rintro ⟨_, stores'⟩ s' - ⟨a, rfl, after⟩
  obtain ⟨receipt, rfl, finished⟩ := after.finished
  exact ⟨receipt, rfl, after.running, finished⟩

/-- What is sealed and what the archive has on record stays along the history. -/
theorem System.Underway.later {fresh : π.Fresh} {t : Errand κ} {P : State κ → Prop}
    {Q : HsmResult EntityState × Stores κ → Disk (FileName κ) (Content κ) → Prop}
    (smooth : π.Smooth) (keeps : c.Keeps t.roots.storage P)
    (lasts : ∀ stores s, t.Running stores s →
      (c.workflow.locally stores).wp (fsMachine π) t.Paused Q s)
    (tame : ∀ ctx target evidence, ¬ c.Asks (.storage (.commitRecall ctx target evidence)))
    (u : sys.Underway fresh t c P Q)
    (h : Relation.ReflTransGen (System.Tries π t.roots t.backend c) sys sys') :
    Seals sys.disk sys'.disk ∧ LocalArchive.Grows t.roots.archive sys.disk sys'.disk := by
  induction h with
  | refl => exact ⟨.refl _, fun _ _ _ _ h => h⟩
  | tail before h ih =>
    have u' := u.steps smooth keeps lasts before
    exact ⟨ih.1.trans (h.seals u'.tree u'.minds.calls tame),
      ih.2.trans (h.step.grows u'.kept)⟩

/-- A new archive of a published entity under an unused key, from every reachable state, wherever
its processes die and however often it is begun again. Each version of the metadata has no effect
of it or its one effect; payloads that are sealed stay; the archive has one receipt for the key;
the process that is not killed comes to an answer; and the answer is the entity with the receipt
attached, which is in all versions then, with the next revision and nothing pinned. -/
theorem archive_retried (inj : Function.Injective (key : Keyed → κ)) (kind : π.Kind)
    (fresh : π.Fresh) (supplies : π.Supplies) (ready : sys.Ready π₀ roots self archive)
    (h : Stores.Archivable ⟨self, archive⟩ ctx data place e sys.disk) {sys₁ : System κ}
    (h₁ : Relation.ReflTransGen (System.Tries π roots archive.id (.archive ctx data place))
      (sys.beginning (.archive ctx data place)) sys₁) :
    (∀ st, World.Version roots.storage ⟨sys₁.disk, sys₁.live.storage⟩ st →
      st.Effected roots.storage ctx data e self.state) ∧
    (∀ sys₂, Relation.ReflTransGen (System.Tries π roots archive.id (.archive ctx data place))
        sys₁ sys₂ → Seals sys₁.disk sys₂.disk ∧
      ∀ r r', archive.Lists r sys₁.disk → archive.Lists r' sys₂.disk → r.key = place →
        r'.key = place → r = r') ∧
    Acc (fun b a => System.Goes π roots archive.id (.archive ctx data place) a b) sys₁ ∧
    ((∃ r, sys₁.Answers r) ∨
      ∃ sys₂, System.Goes π roots archive.id (.archive ctx data place) sys₁ sys₂) ∧
    ∀ r, sys₁.Answers r → ∃ receipt, r = .ok (e.public.attached receipt) ∧
      receipt.key = place ∧ archive.Lists receipt sys₁.disk ∧
      (e.public.attached receipt).residency = .dual ∧
      receipt ∈ (e.public.attached receipt).anchors ∧
      (e.public.attached receipt).revision = e.public.revision + 1 ∧
      ∀ st, World.Version roots.storage ⟨sys₁.disk, sys₁.live.storage⟩ st →
        st.entity data = .ok { e with «public» := e.public.attached receipt } ∧
        ∀ v o, st.views.lookup v = some o → o.context.operationId ≠ ctx.operationId ∧
          o.view.data ≠ data := by
  obtain ⟨w, rfl, rfl, rfl, rfl, rfl, rfl, running⟩ := ready.archival h
  have keeps : (EngineCall.archive w.ctx w.data w.place).Keeps w.roots.storage
      fun st => st.Effected w.roots.storage w.ctx w.data w.entity self.state :=
    State.Effected.keeps
  have effected : self.state.Effected w.roots.storage w.ctx w.data w.entity self.state :=
    .of_unused ready.orderly h.current h.unused
  have lasts := Archival.lasts (w := w) inj kind
  have begun := System.Ready.underway (t := w.errand)
    (P := fun st => st.Effected w.roots.storage w.ctx w.data w.entity self.state) fresh ready
    running effected lasts
  have underway := begun.steps kind.toSmooth keeps lasts h₁
  have versions : ∀ st, World.Version w.roots.storage ⟨sys₁.disk, sys₁.live.storage⟩ st →
      st.Effected w.roots.storage w.ctx w.data w.entity self.state :=
    fun st hv => underway.minds.store.version hv
  refine ⟨versions, fun sys₂ h₂ => ?_, System.Goes.ends lasts underway.under,
    System.progress supplies underway.names underway.under, ?_⟩
  · have later := underway.later kind.toSmooth keeps lasts (by simp [EngineCall.Asks,
      EngineCall.Requests, StorageCall.request]) h₂
    refine ⟨later.1, fun r r' hr hr' hk hk' => ?_⟩
    have hr₂ : w.archive.Lists r sys₂.disk := by
      obtain ⟨payload, hl⟩ := hr
      exact ⟨payload, later.2 _ _ _ ⟨.inl rfl, _, rfl⟩ hl⟩
    exact hr₂.unique hr' (hk.trans hk'.symm)
  · rintro r ⟨after, answered⟩
    obtain ⟨storage, _, hs, receipt, rfl, running, finished⟩ :=
      underway.under.answers answered
    have hroot : storage.root = w.roots.storage := running.root
    have named : receipt.key = w.place := finished.attests.key_eq
    have fresh : receipt ∉ w.entity.public.anchors := fun hm => w.free receipt hm named
    refine ⟨receipt, rfl, named, ?_, rfl, ?_, rfl, fun st hv => ?_⟩
    · obtain ⟨payload, archived⟩ := finished.archived
      obtain ⟨x, hx⟩ := archived.object
      exact ⟨_, Disk.reads_of hx⟩
    · simp [EntityState.attached, fresh]
    · have holding : Holding w.roots.storage (· = storage.state) sys₁.disk (some storage) :=
        .of_safe hroot (hroot ▸ running.storage.safe) rfl
      obtain rfl : st = storage.state := holding.version (hs ▸ hv)
      refine ⟨finished.rest.current, fun v o ho => ?_⟩
      have apart := Table.not_any_iff.mp finished.rest.unviewed v o ho
      exact ⟨fun hc => apart ((versions _ hv).views v o ho hc), apart⟩

end

namespace Reference

/-- One byte is imported. -/
def imported : Option (System Keyed) :=
  (System.start both "b" ["t1"] blank).bind <| System.play both
    [(.opensStorage, ["store", "ns", "t2"]), (.imports "e" [0], ["u0", "t3", "t4"])]

/-- In a system that has been reopened, a new operation can archive the byte. -/
theorem imported_archivable : ∃ (sys : System Keyed) (self : LocalStorage Keyed)
    (archive : LocalArchive), sys.Ready anything both self archive ∧
    Stores.Archivable ⟨self, archive⟩ ⟨"archive", 1, 1⟩ content ⟨"b", "o"⟩ ⟨online, some "u0"⟩
      sys.disk := by
  have hs : (imported.bind fun sys => sys.live.storage.map fun self =>
      (self.poisoned, (self.state.entity content).toOption, self.state.views.keys,
        (self.state.completed.lookup "archive").isNone, self.state.steps.keys)) =
      some (false, some ⟨online, some "u0"⟩, ∅, true, ∅) := by decide +kernel
  have ha : (imported.bind fun sys => sys.live.archive.map fun archive =>
      (archive.root, archive.id,
        (sys.disk.lookup ["objects", "a"] (LocalArchive.receiptName ⟨"b", "o"⟩)).isNone,
        (sys.disk.lookup ["attempts", "a"]
          (LocalArchive.preparedPath ⟨"archive", 1, 1⟩ ⟨"b", "o"⟩)).isNone)) =
      some (["a"], "b", true, true) := by decide +kernel
  obtain ⟨sys, hi, hs⟩ := Option.bind_eq_some_iff.mp hs
  rw [hi, Option.bind_some] at ha
  obtain ⟨self, hself, hs⟩ := Option.map_eq_some_iff.mp hs
  obtain ⟨archive, harchive, ha⟩ := Option.map_eq_some_iff.mp ha
  simp only [Prod.mk.injEq, Option.isNone_iff_eq_none] at hs ha
  obtain ⟨healthy, entity, views, completed, steps⟩ := hs
  obtain ⟨hroot, hid, absent, new⟩ := ha
  obtain ⟨sys₀, h₀, h₁⟩ := Option.bind_eq_some_iff.mp hi
  have start : System.Step anything (.mortal both.archive) both ⟨blank, .dead, ⟨[], []⟩⟩ sys₀ :=
    System.start_step anything_generous trivial h₀
  have played : System.Steps anything (.mortal both.archive) both sys₀ sys :=
    System.play_steps anything_generous h₁
  have steps' := Relation.ReflTransGen.head start played
  have reachable : System.Reachable anything (.mortal both.archive) both sys :=
    ⟨blank, blank_bare _, ⟨rfl, rfl⟩, steps'⟩
  obtain ⟨self', sys', ready, state, frame⟩ := reachable.reopens anything_fresh
    anything_generous.offers hself harchive healthy (System.Steps.names steps' blank_roomy)
  refine ⟨sys', self', archive, ready, ⟨rfl, ?_, nofun, ?_, ⟨?_, fun ctx name _ => ?_⟩, ?_⟩⟩
  · show self'.state.entity content = _
    rw [state]
    cases he : self.state.entity content <;> simp_all [Except.toOption]
  · refine Table.not_any_iff.mpr fun v o ho => ?_
    have hv := Finmap.mem_keys.mpr (Finmap.mem_of_lookup_eq_some ho)
    simp [state, views] at hv
  · exact (congrArg (fun st : State Keyed => st.completed.lookup "archive") state).trans completed
  · show self'.state.steps.lookup _ = none
    rw [state, Finmap.lookup_eq_none, ← Finmap.mem_keys, steps]
    simp
  · have vacant : archive.Vacant ⟨"archive", 1, 1⟩ ⟨"b", "o"⟩ sys.disk :=
      ⟨⟨hid.symm, by decide⟩, hroot ▸ absent, hroot ▸ new⟩
    refine vacant.frame frame ⟨id, ?_, ?_⟩ ⟨id, ?_, ?_⟩ <;>
      simp [LocalArchive.receiptName, LocalArchive.preparedPath]

/-- The byte is archived, although the first process falls as soon as it has begun. -/
theorem archive_retried_imported : ∃ (sys sys₂ : System Keyed) (self : LocalStorage Keyed)
    (archive : LocalArchive) (receipt : ArchiveReceipt), sys.Ready anything both self archive ∧
    Relation.ReflTransGen
      (System.Tries plain both archive.id (.archive ⟨"archive", 1, 1⟩ content ⟨"b", "o"⟩))
      ⟨sys.disk.reboot, .dead, sys.imports⟩ sys₂ ∧
    sys₂.Answers (.ok (online.attached receipt)) ∧ receipt.key = ⟨"b", "o"⟩ ∧
    archive.Lists receipt sys₂.disk := by
  obtain ⟨sys, self, archive, ready, archivable⟩ := imported_archivable
  have falls : System.Tries plain both archive.id (.archive ⟨"archive", 1, 1⟩ content ⟨"b", "o"⟩)
      (sys.beginning (.archive ⟨"archive", 1, 1⟩ content ⟨"b", "o"⟩))
      ⟨sys.disk.reboot, .dead, sys.imports⟩ := .falls
  have goes := fun {sys₁ sys₂ : System Keyed} (h : Relation.ReflTransGen (System.Goes plain both
    archive.id (.archive ⟨"archive", 1, 1⟩ content ⟨"b", "o"⟩)) sys₁ sys₂) =>
    Relation.ReflTransGen.mono (fun _ _ h => System.Tries.goes h) _ _ h
  have retried := fun (sys₁ : System Keyed) h => archive_retried key_injective plain_kind
    plain_fresh plain_supplies ready archivable (show Relation.ReflTransGen _ _ sys₁ from h)
  obtain ⟨-, -, ends, -⟩ := retried _ (.single falls)
  obtain ⟨sys₂, r, hs, hr⟩ := System.Goes.answers ends fun sys' h =>
    (retried sys' (.head falls (goes h))).2.2.2.1
  obtain ⟨receipt, rfl, hk, hl, -⟩ := (retried sys₂ (.head falls (goes hs))).2.2.2.2 r hr
  exact ⟨sys, sys₂, self, archive, receipt, ready, goes hs, hr, hk, hl⟩

end Reference

end HsmRs
