import HsmRs.Local.Helpers
import HsmRs.Storage.Effects

/-! # Layouts

What the effects of the protected steps and of imports do to the layouts on disk,
and under which conditions they go well. A layout is sealed with the content of its
entity before the entity publishes it.
-/

namespace HsmRs

open LocalStorage

variable {κ : Type} {s s' s'' : Disk (FileName κ) (Content κ)} {root : Dir} {layout : String}
  {st next : State κ}

theorem layoutDir_injective {u v : String} (h : layoutDir root u = layoutDir root v) : u = v :=
  List.head_eq_of_cons_eq h

theorem layoutDir_ne_root : layoutDir root layout ≠ root := fun h => by
  have := congrArg List.length h
  simp only [layoutDir, layoutsDir, List.length_cons] at this
  omega

theorem layoutDir_suffix {u v : String} (h : layoutDir root u <:+ layoutDir root v) : u = v :=
  layoutDir_injective (h.eq_of_length (by simp [layoutDir]))

def State.Publishes (st : State κ) (layout : String) : Prop :=
  ∃ id e, st.entities.lookup id = some e ∧ e.published = some layout

/-- An entity publishes the layout or a recall fills it. -/
def State.Uses (st : State κ) (layout : String) : Prop :=
  st.Publishes layout ∨ st.recalls.lookup layout ≠ none

/-- The layouts that are used and not up for removal, and the content of those published. -/
inductive Shown (root : Dir) (st : State κ) (s : Disk (FileName κ) (Content κ)) :
    Dir → FileName κ → Prop where
  | content {layout : String} {n : FileName κ} : st.Publishes layout →
      st.recalls.lookup layout = none → layout ∉ st.gc → s.dir (layoutDir root layout) = true →
      n = .data ∨ n = .sealed → Shown root st s (layoutDir root layout) n
  -- a name that no call writes stands for the directory itself
  | entry {layout : String} : st.Uses layout → layout ∉ st.gc →
      s.dir (layoutDir root layout) = true → Shown root st s (layoutDir root layout) .ownerLock

theorem Shown.named {d : Dir} {n : FileName κ} (h : Shown root st s d n) : Named d n := by
  cases h with
  | content _ _ _ _ hn => rcases hn with rfl | rfl <;> exact id
  | entry => exact id

theorem Shown.dir {d : Dir} {n : FileName κ} (h : Shown root st s d n) : s.dir d = true := by
  cases h with
  | content _ _ _ hd _ => exact hd
  | entry _ _ hd => exact hd

theorem Shown.ne_root {d : Dir} {n : FileName κ} (h : Shown root st s d n) : d ≠ root := by
  cases h with
  | content => exact layoutDir_ne_root
  | entry => exact layoutDir_ne_root

def Old (s : Disk (FileName κ) (Content κ)) (d : Dir) (n : FileName κ) : Prop :=
  Named d n ∧ s.dir d = true

section

variable [Crates]

/-- The layout is sealed and holds content of this length and digest, both for good. -/
structure Bears (root : Dir) (layout : String) (length : Nat) (digest : ContentDigest)
    (s : Disk (FileName κ) (Content κ)) : Prop where
  mark : s.Lasts (layoutDir root layout) .sealed
  content : ∃ b, s.Safe (layoutDir root layout) .data (.bytes b) ∧
    length = b.length ∧ digest = digestOf b

namespace Bears

variable {length : Nat} {digest : ContentDigest}

theorem frame {K : Dir → FileName κ → Prop} (h : Bears root layout length digest s)
    (hf : Frame K s s') (hd : K (layoutDir root layout) .data)
    (hs : K (layoutDir root layout) .sealed) : Bears root layout length digest s' := by
  obtain ⟨b, hb, hr⟩ := h.content
  exact ⟨h.mark.frame hf hs, b, hb.frame hf hd, hr⟩

theorem powerLoss (h : Bears root layout length digest s) (hp : s.PowerLoss s')
    (hd : s'.dir (layoutDir root layout) = true) : Bears root layout length digest s' := by
  obtain ⟨b, hb, hr⟩ := h.content
  have hl := hp.lookup_safe hd hb.1 hb.2
  exact ⟨h.mark.powerLoss hp hd, b, ⟨hl, by rw [hp.safeFile]; exact hl⟩, hr⟩

theorem holds (h : Bears root layout length digest s) : ∃ b, s.Holds (layoutDir root layout) b ∧
    length = b.length ∧ digest = digestOf b := by
  obtain ⟨b, hb, hr⟩ := h.content
  exact ⟨b, ⟨true, hb.1⟩, hr⟩

end Bears

/-- What `next` publishes and `st` does not is sealed with the content of its entity, and what it
uses and `st` does not is a directory that is there for good. -/
structure Provides (root : Dir) (st next : State κ) (s : Disk (FileName κ) (Content κ)) :
    Prop where
  content : ∀ id e layout, next.entities.lookup id = some e → e.published = some layout →
    (∃ e₀, st.entities.lookup id = some e₀ ∧ e₀.published = some layout ∧
      e₀.public.length = e.public.length ∧ e₀.public.digest = e.public.digest) ∨
    Bears root layout e.public.length e.public.digest s
  entry : ∀ layout, next.Uses layout → st.Uses layout ∨ s.Grounded (layoutDir root layout)

namespace Provides

theorem refl : Provides root st st s :=
  ⟨fun _ e _ he hp => .inl ⟨e, he, hp, rfl, rfl⟩, fun _ => .inl⟩

theorem of_eq {next' : State κ} (h : Provides root st next s)
    (he : next'.entities = next.entities) (hr : next'.recalls = next.recalls) :
    Provides root st next' s := by
  refine ⟨fun id e layout hl => h.content id e layout (he ▸ hl), fun layout hu => h.entry layout ?_⟩
  rwa [State.Uses, State.Publishes, he, hr] at hu

theorem before {n : FileName κ} (h : Provides root st next s) (hf : Frame (NamedBut root n) s s') :
    Provides root st next s' := by
  refine ⟨fun id e layout he hp => (h.content id e layout he hp).imp_right fun hb =>
    hb.frame hf ⟨fun h => h, fun h => layoutDir_ne_root h.1⟩
      ⟨fun h => h, fun h => layoutDir_ne_root h.1⟩, fun layout hu => (h.entry layout hu).imp_right
      fun hg => hg.frame hf (n := .ownerLock) ⟨fun h => h, fun h => layoutDir_ne_root h.1⟩⟩

/-- One entity is entered, with its content and its layout if they are new. -/
theorem entered {name : String} {e : Entity}
    (he : next.entities = st.entities.insert name e)
    (hr : ∀ layout, next.recalls.lookup layout ≠ none → st.recalls.lookup layout ≠ none)
    (hn : ∀ layout, e.published = some layout →
      ((∃ e₀, st.entities.lookup name = some e₀ ∧ e₀.published = some layout ∧
        e₀.public.length = e.public.length ∧ e₀.public.digest = e.public.digest) ∨
      Bears root layout e.public.length e.public.digest s) ∧
      (st.Uses layout ∨ s.Grounded (layoutDir root layout))) : Provides root st next s := by
  have found : ∀ {id x}, next.entities.lookup id = some x →
      id = name ∧ x = e ∨ st.entities.lookup id = some x := by
    intro id x hx
    rw [he, Table.lookup_insert] at hx
    split at hx
    · cases hx
      exact .inl ⟨‹_›, rfl⟩
    · exact .inr hx
  refine ⟨fun id x layout hx hp => ?_, fun layout hu => ?_⟩
  · rcases found hx with ⟨rfl, rfl⟩ | hx
    · exact (hn layout hp).1
    · exact .inl ⟨x, hx, hp, rfl, rfl⟩
  · rcases hu with ⟨id, x, hx, hp⟩ | hu
    · rcases found hx with ⟨rfl, rfl⟩ | hx
      · exact (hn layout hp).2
      · exact .inl (.inl ⟨id, x, hx, hp⟩)
    · exact .inl (.inr (hr layout hu))

end Provides

/-- Only the end of a recall publishes a layout, one that a recall has used since its beginning. -/
theorem Effect.provides {fresh : String → Prop} {ctx : OperationContext} {request : StepRequest}
    {value : StepValue} (h : Effect root fresh st ctx request value next)
    (made : ∀ expected anchor target, request = .prepareRecall expected anchor →
      value = .target target → s.Grounded (layoutDir root target.layoutId))
    (hb : ∀ target evidence, request = .commitRecall target evidence →
      Bears root target.layoutId evidence.length evidence.digest s) : Provides root st next s := by
  cases h with
  | prepareArchive => exact Provides.refl.of_eq rfl rfl
  | commitArchive _ he =>
    have hl := (State.entity_eq_ok.mp he).2.1
    exact .entered rfl (fun _ => id) fun layout hp =>
      ⟨.inl ⟨_, hl, hp, rfl, rfl⟩, .inl (.inl ⟨_, _, hl, hp⟩)⟩
  | release => exact .entered rfl (fun _ => id) fun layout hp => by cases hp
  | prepareRecall =>
    refine ⟨fun _ e _ he hp => .inl ⟨e, he, hp, rfl, rfl⟩, fun layout hu => ?_⟩
    rcases hu with hu | hu
    · exact .inl (.inl hu)
    · rw [Table.lookup_insert] at hu
      split at hu
      · subst layout
        exact .inr (made _ _ _ rfl rfl)
      · exact .inl (.inr hu)
  | commitRecall ho =>
    refine .entered rfl (fun layout hu => ?_) fun layout hp => ?_
    · rw [Table.lookup_erase] at hu
      split at hu
      · exact (hu rfl).elim
      · exact hu
    · cases hp
      exact ⟨.inr (hb _ _ rfl), .inl (.inr (by rw [ho]; exact Option.some_ne_none _))⟩

/-- A call leaves the published layouts alone and provides what it publishes. -/
structure Lays (root : Dir) (st next : State κ) (s s' : Disk (FileName κ) (Content κ)) : Prop where
  frame : Frame (Shown root st s) s s'
  provides : Provides root st next s'

theorem Lays.before {n : FileName κ} (h : Lays root st next s s')
    (hf : Frame (NamedBut root n) s' s'') : Lays root st next s s'' :=
  ⟨h.frame.trans (hf.mono fun _ _ h => ⟨h.named, fun h' => h.ne_root h'.1⟩), h.provides.before hf⟩

end

/-! ## Import -/

variable [DecidableEq κ] {π : Env (FileName κ) (Content κ)}
  {C : Disk (FileName κ) (Content κ) → Prop}

theorem wp_importLayout [Crates] {bytes : Bytes}
    {Q : HsmResult (String × Nat × ContentDigest) → Disk (FileName κ) (Content κ) → Prop}
    (cut : ∀ s', Frame (Old s) s s' → C s')
    (ok : ∀ layout s', Frame (Old s) s s' → s'.Grounded (layoutDir root layout) →
      Bears root layout bytes.length (digestOf bytes) s' →
      Q (.ok (layout, bytes.length, digestOf bytes)) s')
    (error : ∀ e s', Frame (Old s) s s' → Q (.error e) s') :
    (importLayout root bytes : Io κ _).run.wp π.machine C Q s := by
  have early : ∀ {s'}, Frame Named s s' → Frame (Old s) s s' := fun hf => hf.mono fun _ _ h => h.1
  apply Prog.wp_run_bind_of
  refine wp_newLayout (fun s' hf => cut s' (early hf)) (fun u s₁ _ _ hm f₁ _ => ?_)
    fun e s' _ hf _ => error e s' (early hf)
  -- from here on only the new directory is written
  have late : ∀ {s'}, Frame (fun d n => Named d n ∧ d ≠ layoutDir root u) s₁ s' →
      Frame (Old s) s s' := fun hf => by
    refine (early f₁).trans (hf.mono fun d n h => ⟨h.1, ?_⟩)
    rintro rfl
    have := hm.absent
    rw [show s.dir (u :: layoutsDir root) = true from h.2] at this
    cases this
  have apart : ∀ n : FileName κ,
    ¬ (Named (layoutDir root u) n ∧ layoutDir root u ≠ layoutDir root u) :=
    fun _ h => h.2 rfl
  apply Prog.wp_run_bind_of
  refine wp_io (cut s₁ (early f₁)) (fun s' ht => cut s' (late (ht.frame (apart _)))) ?_
  rintro (e | ⟨⟩) s₂ h₂
  · exact error _ s₂ (late (h₂.frame (apart _)))
  have f₂ : Frame (fun d n => Named d n ∧ d ≠ layoutDir root u) s₁ s₂ := h₂.frame (apart _)
  obtain ⟨hd, -, rfl⟩ := h₂.create_ok
  have l₂ : (s₁.put (layoutDir root u) .data (some ⟨.bytes bytes, false⟩)).lookup
      (layoutDir root u) .data = some ⟨.bytes bytes, false⟩ := by simp [hd]
  have g₂ : (s₁.put (layoutDir root u) .data (some ⟨.bytes bytes, false⟩)).Grounded
      (layoutDir root u) := ⟨hm.dir, hm.safe⟩
  generalize s₁.put (layoutDir root u) .data (some ⟨.bytes bytes, false⟩) = s₂ at f₂ l₂ g₂
  have named : ∀ {s s' : Disk (FileName κ) (Content κ)}, Frame Named s s' →
      Frame (fun d n => Named d n ∧ d ≠ layoutDir root u) s s' := fun hf => hf.mono fun _ _ h => h.1
  apply Prog.wp_run_bind_of
  refine wp_syncFile (fun s' hf => cut s' (late (f₂.trans (named hf)))) (fun f hf => ?_)
    fun e s' _ hf _ => error e s' (late (f₂.trans (named hf)))
  rw [l₂, Option.some.injEq] at hf
  subst hf
  have synced : Frame Named s₂ (s₂.put (layoutDir root u) .data (some ⟨.bytes bytes, true⟩)) :=
    Disk.frame_sync l₂
  have f₃ := f₂.trans (named synced)
  have g₃ := g₂.frame synced (id : Named _ (.data : FileName κ))
  have l₃ : (s₂.put (layoutDir root u) .data (some ⟨.bytes bytes, true⟩)).lookup (layoutDir root u)
      .data = some ⟨.bytes bytes, true⟩ := by simp [g₂.1]
  generalize s₂.put (layoutDir root u) .data (some ⟨.bytes bytes, true⟩) = s₃ at f₃ l₃ g₃
  apply Prog.wp_run_bind_of
  refine wp_syncDir (fun s' hf => cut s' (late (f₃.trans (named hf)))) (fun _ => ?_)
    fun e s' _ hf _ => error e s' (late (f₃.trans (named hf)))
  have flushed : Frame Named s₃ (s₃.flush (layoutDir root u)) := (Disk.flushed_flush _ _).frame
  have f₄ := f₃.trans (named flushed)
  have h₄ := (settled_flush _ (layoutDir root u)).safe l₃
  have g₄ := g₃.frame flushed (id : Named _ (.data : FileName κ))
  generalize s₃.flush (layoutDir root u) = s₄ at f₄ h₄ g₄
  apply Prog.wp_run_bind_of
  refine wp_digestFile (cut s₄ (late f₄)) (fun b hb => ?_) fun e _ _ => error e s₄ (late f₄)
  obtain rfl := Disk.Holds.unique ⟨true, h₄.1⟩ hb
  have onto : ∀ s', Frame Named s₄ s' ∨ Placed (layoutDir root u) .sealed
      (.seal (.imported (digestOf bytes))) s₄ s' → Frame (Old s) s s' := by
    rintro s' (hf | hp)
    · exact late (f₄.trans (named hf))
    · exact late (f₄.trans (hp.others.mono fun _ _ h => ⟨h.1, fun h' => h.2 h'.1⟩))
  apply Prog.wp_run_bind_of
  refine wp_writeJson id (fun s' h => cut s' (onto s' h)) (fun s₅ hp hs _ => ?_)
    fun e s' _ h _ => error e s' (onto s' h)
  have f₅ := onto s₅ (.inr hp)
  have others : NamedBut (layoutDir root u) .sealed (layoutDir root u) (.data : FileName κ) :=
    ⟨fun h => h, by simp⟩
  exact ⟨cut s₅ f₅, ok u s₅ f₅ (g₄.frame hp.others others)
    ⟨hs.lasts, bytes, h₄.frame hp.others others, rfl, rfl⟩⟩

/-! ## The effects of the protected steps -/

section Effects

variable [Crates] {ctx : OperationContext}

omit [Crates] in
theorem wp_liftM {α : Type} {r : HsmResult α}
    {Q : HsmResult α → Disk (FileName κ) (Content κ) → Prop} (now : C s) (h : Q r s) :
    (liftM r : Io κ α).run.wp π.machine C Q s := ⟨now, h⟩

theorem wp_prepareArchiveEffect {data : DataKey}
    {Q : HsmResult (DataView × State κ) → Disk (FileName κ) (Content κ) → Prop}
    (cut : ∀ s', Frame Named s s' → C s')
    (ok : ∀ e layout viewId, st.entity data = .ok e → e.published = some layout →
      ¬ st.views.Any (fun v => v.view.data = data) → π.uuid s viewId →
      Q (.ok (⟨data, viewId, e.public.length, e.public.digest, endpoint (layoutDir root layout)⟩,
        { st with views := st.views.insert viewId ⟨ctx, ⟨data, viewId, e.public.length,
          e.public.digest, endpoint (layoutDir root layout)⟩⟩ })) (s.issue viewId))
    (error : ∀ e, ¬ (∃ e layout, st.entity data = .ok e ∧ e.published = some layout ∧
      ¬ st.views.Any (fun v => v.view.data = data)) → Q (.error e) s) :
    (prepareArchiveEffect root ctx data st).run.wp π.machine C Q s := by
  have now : C s := cut s (.refl s)
  apply Prog.wp_run_bind_of
  cases he : st.entity data with
  | error e =>
    refine ⟨now, error e ?_⟩
    rintro ⟨_, _, h, -⟩
    rw [he] at h
    cases h
  | ok e =>
  refine ⟨now, ?_⟩
  apply Prog.wp_run_bind_of
  cases hp : e.published with
  | none =>
    refine ⟨now, error _ ?_⟩
    rintro ⟨_, _, h, hl, -⟩
    rw [he] at h
    cases h
    rw [hp] at hl
    cases hl
  | some layout =>
  refine ⟨now, Prog.wp_guard now (fun hv => error _ ?_) fun hv => ?_⟩
  · rintro ⟨_, _, -, -, h⟩
    exact h hv
  apply Prog.wp_run_bind_of
  refine wp_ask now (fun s' ht => cut s' (ht.frame trivial)) fun u s' h => ?_
  obtain ⟨hu, rfl⟩ := h.uuid
  exact ⟨cut _ (h.frame trivial), ok e layout u he hp hv hu⟩

theorem wp_commitArchiveEffect {view : DataView} {receipt : ArchiveReceipt}
    {Q : HsmResult (EntityState × State κ) → Disk (FileName κ) (Content κ) → Prop}
    (cut : ∀ s', Frame Named s s' → C s')
    (ok : ∀ r s', st.views.lookup view.viewId = some ⟨ctx, view⟩ →
      st.attachAnchor ctx view receipt = .ok r → Frame Named s s' → s'.locked = s.locked →
      Q (.ok r) s')
    (error : ∀ e s', Frame Named s s' → ¬ (π.Smooth ∧
      st.views.lookup view.viewId = some ⟨ctx, view⟩ ∧
      (∃ r, st.attachAnchor ctx view receipt = .ok r) ∧
      ∃ e, decodeEndpoint view.source = .ok e ∧ s.dir e.root = true ∧
        s.locked e.root .transferLock = false) → Q (.error e) s') :
    (commitArchiveEffect ctx view receipt st).run.wp π.machine C Q s := by
  have now : C s := cut s (.refl s)
  apply Prog.wp_run_bind_of
  cases ho : st.views.lookup view.viewId with
  | none =>
    refine ⟨now, error _ s (.refl s) fun h => ?_⟩
    rw [ho] at h
    cases h.2.1
  | some owner =>
  refine ⟨now, ?_⟩
  refine Prog.wp_guard now (fun hn => error _ s (.refl s) fun h => ?_) fun hn => ?_
  · rw [ho] at h
    cases h.2.1
    exact hn.elim (fun h => h rfl) fun h => h rfl
  rw [not_or, not_not, not_not] at hn
  obtain ⟨c, v⟩ := owner
  obtain ⟨rfl, rfl⟩ := hn
  apply Prog.wp_run_bind_of
  cases he : decodeEndpoint v.source with
  | error e =>
    refine ⟨now, error e s (.refl s) fun h => ?_⟩
    obtain ⟨-, -, -, e', he', -⟩ := h
    rw [he] at he'
    cases he'
  | ok e =>
  refine ⟨now, ?_⟩
  have named : ∀ {s' : Disk (FileName κ) (Content κ)} {x : Bool}, Frame Named s s' →
      Frame Named s (s'.setLock e.root .transferLock x) := fun h => h.trans frame_lock
  refine Prog.wp_mono (C := fun s' => Frame Named s s')
    (wp_withTransferLock (.refl s) (fun _ _ h => named h) ?_ ?_ ?_)
    (fun s' h => cut s' h) fun _ _ _ h => h
  · refine fun e' _ hr => error e' s (.refl s) fun h => ?_
    obtain ⟨hs, -, -, e'', he', hd, -⟩ := h
    rw [he] at he'
    cases he'
    rcases hr with hr | hr
    · exact hr hs
    · rw [hd] at hr
      cases hr
  · refine fun m s' hf hr => error _ s' hf fun h => ?_
    obtain ⟨hs, -, -, e'', he', -, hl⟩ := h
    rw [he] at he'
    cases he'
    rcases hr with hr | hr
    · exact hr hs
    · rw [hl] at hr
      cases hr
  · intro _ hl
    refine wp_liftM (named (.refl s)) ?_
    cases ha : st.attachAnchor c v receipt with
    | error e' =>
      refine error e' _ (named (named (.refl s))) fun h => ?_
      obtain ⟨-, -, ⟨r, hr⟩, -⟩ := h
      rw [ha] at hr
      cases hr
    | ok r => exact ok r _ ho ha (named (named (.refl s))) (setLock_restore hl rfl)

theorem wp_prepareRecallEffect {expected : EntityState} {anchor : ArchiveReceipt}
    {Q : HsmResult (RecallTarget × State κ) → Disk (FileName κ) (Content κ) → Prop}
    (cut : ∀ s', Frame Named s s' → C s')
    (ok : ∀ layout s', st.recallable expected anchor = .ok () → π.uuid s layout →
      Made (layoutDir root layout) s s' → Frame Named s s' → s'.locked = s.locked →
      Q (.ok (⟨expected.data, layout, anchor.key, endpoint (layoutDir root layout)⟩,
        { st with recalls := st.recalls.insert layout ⟨ctx, ⟨expected.data, layout, anchor.key,
          endpoint (layoutDir root layout)⟩, anchor⟩ })) s')
    (error : ∀ e s', Frame Named s s' → ¬ (π.Smooth ∧ st.recallable expected anchor = .ok () ∧
      s.dir (layoutsDir root) = true) → Q (.error e) s') :
    (prepareRecallEffect root ctx expected anchor st).run.wp π.machine C Q s := by
  have now : C s := cut s (.refl s)
  apply Prog.wp_run_bind_of
  cases hr : st.recallable expected anchor with
  | error e =>
    refine ⟨now, error e s (.refl s) fun h => ?_⟩
    rw [hr] at h
    cases h.2.1
  | ok =>
  refine ⟨now, ?_⟩
  apply Prog.wp_run_bind_of
  refine wp_newLayout cut (fun u s' hu _ hm hf hk => ⟨cut s' hf, ok u s' hr hu hm hf hk⟩)
    fun e s' _ hf hn => error e s' hf fun h => ?_
  rcases hn with hn | hn
  · exact hn h.1
  · rw [h.2.2] at hn
    cases hn

structure Sealing (root : Dir) (ctx : OperationContext) (target : RecallTarget) (st : State κ)
    (s s' : Disk (FileName κ) (Content κ)) : Prop where
  owner : ∃ anchor, st.recalls.lookup target.layoutId = some ⟨ctx, target, anchor⟩
  placed : Placed (layoutDir root target.layoutId) .sealed (.seal (.recalled target.data)) s s'

structure Landed (root : Dir) (ctx : OperationContext) (target : RecallTarget)
    (evidence : TransferEvidence) (st : State κ) (s : Disk (FileName κ) (Content κ)) : Prop where
  destination : ∃ e, decodeEndpoint target.destination = .ok e ∧
    e.root = layoutDir root target.layoutId
  content : ∃ anchor b, st.recalls.lookup target.layoutId = some ⟨ctx, target, anchor⟩ ∧
    s.Holds (layoutDir root target.layoutId) b ∧
    st.sealable ⟨ctx, target, anchor⟩ target evidence b.length (digestOf b) = .ok ()
  publish : ∃ r, st.publish ctx target = .ok r
  unlocked : s.locked (layoutDir root target.layoutId) .transferLock = false

omit [Crates] [DecidableEq κ] in
theorem Sealing.after {target : RecallTarget} (hf : Frame Named s s')
    (h : Sealing root ctx target st s' s'') : Sealing root ctx target st s s'' :=
  ⟨h.owner, .after hf id h.placed⟩

theorem wp_landing {target : RecallTarget} {evidence : TransferEvidence} {anchor : ArchiveReceipt}
    {Q : HsmResult (EntityState × State κ) → Disk (FileName κ) (Content κ) → Prop}
    (ho : st.recalls.lookup target.layoutId = some ⟨ctx, target, anchor⟩)
    (cut : ∀ s', Frame Named s s' ∨ Sealing root ctx target st s s' → C s')
    (ok : ∀ b r s', s.Holds (layoutDir root target.layoutId) b →
      st.sealable ⟨ctx, target, anchor⟩ target evidence b.length (digestOf b) = .ok () →
      st.publish ctx target = .ok r → Sealing root ctx target st s s' →
      Bears root target.layoutId b.length (digestOf b) s' → s'.locked = s.locked → Q (.ok r) s')
    (error : ∀ e s', Frame Named s s' ∨ Sealing root ctx target st s s' → ¬ (π.Smooth ∧
      (∃ b, s.Holds (layoutDir root target.layoutId) b ∧
        st.sealable ⟨ctx, target, anchor⟩ target evidence b.length (digestOf b) = .ok ()) ∧
      ∃ r, st.publish ctx target = .ok r) → Q (.error e) s') :
    (do
      let (length, digest) ← digestFile (layoutDir root target.layoutId)
      st.sealable ⟨ctx, target, anchor⟩ target evidence length digest
      syncFile (layoutDir root target.layoutId) .data
      syncDir (layoutDir root target.layoutId)
      writeJson (layoutDir root target.layoutId) .sealed (.seal (.recalled target.data))
      st.publish ctx target : Io κ (EntityState × State κ)).run.wp π.machine C Q s := by
  have still : ∀ s', Frame Named s s' → C s' := fun s' h => cut s' (.inl h)
  have now : C s := still s (.refl s)
  apply Prog.wp_run_bind_of
  refine wp_digestFile now (fun b hb => ?_) fun e _ hr => error e s (.inl (.refl s)) fun h => ?_
  case refine_2 =>
    obtain ⟨hs, ⟨b, hb, -⟩, -⟩ := h
    rcases hr with hr | hr
    · exact hr hs
    · exact hr b hb
  apply Prog.wp_run_bind_of
  cases hl : st.sealable ⟨ctx, target, anchor⟩ target evidence b.length (digestOf b) with
  | error e =>
    refine ⟨now, error e s (.inl (.refl s)) fun h => ?_⟩
    obtain ⟨-, ⟨b', hb', hl'⟩, -⟩ := h
    obtain rfl := hb.unique hb'
    rw [hl] at hl'
    cases hl'
  | ok =>
  refine ⟨now, ?_⟩
  have onward : ∀ {e s'}, Frame Named s s' → ¬ π.Smooth → Q (.error e) s' :=
    fun hf hr => error _ _ (.inl hf) fun h => hr h.1
  obtain ⟨x, hx⟩ := hb
  have hd : s.dir (layoutDir root target.layoutId) = true := Disk.Holds.dir ⟨x, hx⟩
  apply Prog.wp_run_bind_of
  refine wp_syncFile still (fun f hf => ?_) fun e s' _ hf hr => onward hf fun hs => ?_
  case refine_2 =>
    rcases hr with hr | hr
    · exact hr hs
    · rw [hx] at hr
      cases hr
  rw [hx, Option.some.injEq] at hf
  subst hf
  have f₁ : Frame Named s (s.put (layoutDir root target.layoutId) .data (some ⟨.bytes b, true⟩)) :=
    Disk.frame_sync hx
  have l₁ : (s.put (layoutDir root target.layoutId) .data (some ⟨.bytes b, true⟩)).lookup
      (layoutDir root target.layoutId) .data = some ⟨.bytes b, true⟩ := by simp [hd]
  have k₁ : (s.put (layoutDir root target.layoutId) .data (some ⟨.bytes b, true⟩)).locked =
    s.locked := rfl
  generalize s.put (layoutDir root target.layoutId) .data (some ⟨.bytes b, true⟩) = s₁ at f₁ l₁ k₁
  have hd₁ := f₁.dir _ _ (fun h => h : ¬ (FileName.data : FileName κ).IsTemp) hd
  apply Prog.wp_run_bind_of
  refine wp_syncDir (fun s' h => still s' (f₁.trans h)) (fun _ => ?_)
    fun e s' _ hf hr => onward (f₁.trans hf) fun hs => ?_
  case refine_2 =>
    rcases hr with hr | hr
    · exact hr hs
    · rw [hd₁] at hr
      cases hr
  have f₂ : Frame Named s (s₁.flush (layoutDir root target.layoutId)) :=
    f₁.trans (Disk.flushed_flush _ _).frame
  have data₂ := (settled_flush _ (layoutDir root target.layoutId)).safe l₁
  have k₂ : (s₁.flush (layoutDir root target.layoutId)).locked = s.locked := k₁
  generalize s₁.flush (layoutDir root target.layoutId) = s₂ at f₂ data₂ k₂
  have onto : ∀ s', Frame Named s₂ s' ∨ Placed (layoutDir root target.layoutId) .sealed
      (.seal (.recalled target.data)) s₂ s' →
      Frame Named s s' ∨ Sealing root ctx target st s s' := by
    rintro s' (hf | hp)
    · exact .inl (f₂.trans hf)
    · exact .inr (.after f₂ ⟨⟨anchor, ho⟩, hp⟩)
  apply Prog.wp_run_bind_of
  refine wp_writeJson id (fun s' h => cut s' (onto s' h)) (fun s₃ hp mark₃ k₃ => ?_)
    fun e s' _ h hr => error e s' (onto s' h) fun hc => ?_
  case refine_2 =>
    rcases hr with hr | hr
    · exact hr hc.1
    · rw [f₂.dir _ _ (fun h => h : ¬ (FileName.data : FileName κ).IsTemp) hd] at hr
      cases hr
  have sealing : Sealing root ctx target st s s₃ := .after f₂ ⟨⟨anchor, ho⟩, hp⟩
  have bears : Bears root target.layoutId b.length (digestOf b) s₃ :=
    ⟨mark₃.lasts, b, data₂.frame hp.others ⟨fun h => h, by simp⟩, rfl, rfl⟩
  refine wp_liftM (cut s₃ (.inr sealing)) ?_
  cases hp : st.publish ctx target with
  | error e =>
    refine error e s₃ (.inr sealing) fun h => ?_
    obtain ⟨-, -, r, hr⟩ := h
    rw [hp] at hr
    cases hr
  | ok r => exact ok b r s₃ ⟨x, hx⟩ hl hp sealing bears (k₃.trans k₂)

theorem wp_commitRecallEffect {target : RecallTarget} {evidence : TransferEvidence}
    {Q : HsmResult (EntityState × State κ) → Disk (FileName κ) (Content κ) → Prop}
    (locks : ∀ s' d b, C s' → C (s'.setLock d .transferLock b))
    (cut : ∀ s', Frame Named s s' ∨ Sealing root ctx target st s s' → C s')
    (ok : ∀ anchor b r s', st.recalls.lookup target.layoutId = some ⟨ctx, target, anchor⟩ →
      s.Holds (layoutDir root target.layoutId) b →
      st.sealable ⟨ctx, target, anchor⟩ target evidence b.length (digestOf b) = .ok () →
      st.publish ctx target = .ok r → Sealing root ctx target st s s' →
      Bears root target.layoutId b.length (digestOf b) s' → s'.locked = s.locked → Q (.ok r) s')
    (error : ∀ e s', Frame Named s s' ∨ Sealing root ctx target st s s' →
      ¬ (π.Smooth ∧ Landed root ctx target evidence st s) → Q (.error e) s') :
    (commitRecallEffect root ctx target evidence st).run.wp π.machine C Q s := by
  have now : C s := cut s (.inl (.refl s))
  have fails : ∀ e, ¬ Landed root ctx target evidence st s → Q (.error e) s :=
    fun e h => error e s (.inl (.refl s)) fun hc => h hc.2
  apply Prog.wp_run_bind_of
  cases ho : st.recalls.lookup target.layoutId with
  | none =>
    refine ⟨now, fails _ fun h => ?_⟩
    obtain ⟨anchor, b, ho', -⟩ := h.content
    rw [ho] at ho'
    cases ho'
  | some owner =>
  refine ⟨now, ?_⟩
  refine Prog.wp_guard now (fun hn => fails _ fun h => ?_) fun hn => ?_
  · obtain ⟨anchor, b, ho', -⟩ := h.content
    rw [ho] at ho'
    cases ho'
    exact hn.elim (fun h => h rfl) fun h => h rfl
  rw [not_or, not_not, not_not] at hn
  obtain ⟨c, t, anchor⟩ := owner
  obtain ⟨rfl, rfl⟩ := hn
  apply Prog.wp_run_bind_of
  cases he : decodeEndpoint t.destination with
  | error e =>
    refine ⟨now, fails e fun h => ?_⟩
    obtain ⟨e', he', -⟩ := h.destination
    rw [he] at he'
    cases he'
  | ok e =>
  refine ⟨now, ?_⟩
  refine Prog.wp_guard now (fun hn => fails _ fun h => ?_) fun _ => ?_
  · obtain ⟨e', he', hr⟩ := h.destination
    rw [he] at he'
    cases he'
    exact hn hr
  refine wp_withTransferLock now (fun s' b => locks s' _ b) ?_ ?_ fun _ hl => ?_
  · refine fun e' _ hr => error e' s (.inl (.refl s)) fun h => ?_
    obtain ⟨-, b, -, hb, -⟩ := h.2.content
    rcases hr with hr | hr
    · exact hr h.1
    · rw [hb.dir] at hr
      cases hr
  · refine fun m s' hf hr => error _ s' (.inl hf) fun h => ?_
    rcases hr with hr | hr
    · exact hr h.1
    · rw [h.2.unlocked] at hr
      cases hr
  have wraps : ∀ {s'}, Frame Named (s.setLock (layoutDir root t.layoutId) .transferLock true) s' ∨
      Sealing root c t st (s.setLock (layoutDir root t.layoutId) .transferLock true) s' →
      Frame Named s s' ∨ Sealing root c t st s s' := fun h =>
    h.imp frame_lock.trans (.after frame_lock)
  have unlocks : ∀ {s'}, Frame Named s s' ∨ Sealing root c t st s s' →
      Frame Named s (s'.setLock (layoutDir root t.layoutId) .transferLock false) ∨
      Sealing root c t st s (s'.setLock (layoutDir root t.layoutId) .transferLock false) := fun h =>
    h.imp (·.trans frame_lock) fun h => ⟨h.owner, h.placed.before id frame_lock⟩
  refine wp_landing ho (fun s' h => cut s' (wraps h)) ?_ ?_
  · intro b r s' hb hs hp hw bears hk
    have hw' : Sealing root c t st s (s'.setLock (layoutDir root t.layoutId) .transferLock false) :=
      ⟨hw.owner, (Placed.after frame_lock id hw.placed).before id frame_lock⟩
    have bears' := bears.frame (frame_lock (K := Named) (d := layoutDir root t.layoutId)
      (n := .transferLock) (b := false)) id id
    exact ok anchor b r _ ho hb hs hp hw' bears' (setLock_restore hl hk)
  · intro e' s' h hr
    refine error e' _ (unlocks (wraps h)) fun hc => hr ⟨hc.1, ?_, hc.2.publish⟩
    obtain ⟨anchor', b, ho', hb, hs⟩ := hc.2.content
    rw [ho] at ho'
    cases ho'
    exact ⟨b, hb, hs⟩

end Effects

end HsmRs
