import HsmRs.Storage.Residency

/-! # Who owns a layout

Every layout that the metadata name has one owner: the entity that publishes it, the
recall that fills it, or the list of those up for removal. What is up for removal has
no way back.
-/

namespace HsmRs

variable {κ : Type} {root : Dir} {st next : State κ} {fresh : String → Prop}

namespace State

/-- The layouts that entities publish and recalls fill. -/
def live (st : State κ) : Multiset String :=
  Table.gather Entity.published st.entities +
    Table.gather (fun owner : RecallOwner => some owner.target.layoutId) st.recalls

def layouts (st : State κ) : Multiset String := st.live + st.gc

/-- An entity publishes the layout, a pinned view reads it or an active recall fills it. -/
inductive Refers [Crates] (root : Dir) (st : State κ) (layout : String) : Prop where
  | entity {id : String} {e : Entity} : st.entities.lookup id = some e →
      e.published = some layout → Refers root st layout
  | view {v : String} {owner : ViewOwner} : st.views.lookup v = some owner →
      owner.view.source = endpoint (layoutDir root layout) → Refers root st layout
  | «recall» {l : String} {owner : RecallOwner} : st.recalls.lookup l = some owner →
      owner.target.destination = endpoint (layoutDir root layout) → Refers root st layout

theorem mem_live {layout : String} : layout ∈ st.live ↔ st.Publishes layout ∨
    ∃ l owner, st.recalls.lookup l = some owner ∧ owner.target.layoutId = layout := by
  simp only [live, Multiset.mem_add, Table.mem_gather, Option.some.injEq]
  rfl

theorem Refers.live [Crates] {layout : String} (h : st.Refers root layout) (hc : st.Coherent root) :
    layout ∈ st.live := by
  rw [mem_live]
  cases h with
  | entity he hp => exact .inl ⟨_, _, he, hp⟩
  | view hv hs =>
    obtain ⟨-, e, l, he, -, hp, hl, -⟩ := hc.view _ _ hv
    obtain rfl := layoutDir_injective (endpoint_injective (hl.symm.trans hs))
    exact .inl ⟨_, e, he, hp⟩
  | «recall» hr hd =>
    obtain ⟨hl, e, -, -, -, -, -, hs⟩ := hc.recall _ _ hr
    obtain rfl := layoutDir_injective (endpoint_injective (hs.symm.trans hd))
    exact .inr ⟨_, _, hr, rfl⟩

/-- Layouts stay, are handed on or are dropped, or a new one is taken. -/
inductive Moves (fresh : String → Prop) (st next : State κ) : Prop where
  | kept : next.live ≤ st.live → next.layouts ≤ st.layouts → Moves fresh st next
  | taken {layout : String} : fresh layout → next.live = layout ::ₘ st.live →
      next.layouts = layout ::ₘ st.layouts → Moves fresh st next

theorem Moves.of_live (hg : next.gc = st.gc) (h : next.live = st.live) : Moves fresh st next := by
  refine .kept h.le ?_
  rw [layouts, layouts, h, hg]

theorem Moves.of_dropped {layout : String} (hg : next.gc = st.gc ++ [layout])
    (h : st.live = layout ::ₘ next.live) : Moves fresh st next := by
  refine .kept (h ▸ Multiset.le_cons_self _ _) (le_of_eq ?_)
  rw [layouts, layouts, h, hg, ← Multiset.coe_add, Multiset.coe_singleton, Multiset.cons_add,
    ← add_assoc, ← Multiset.singleton_add, add_comm]

theorem Moves.of_taken {layout : String} (hf : fresh layout) (hg : next.gc = st.gc)
    (h : next.live = layout ::ₘ st.live) : Moves fresh st next := by
  refine .taken hf h ?_
  rw [layouts, layouts, h, hg, Multiset.cons_add]

end State

theorem Effect.moves [Crates] {ctx : OperationContext} {request : StepRequest} {value : StepValue}
    (h : Effect root fresh st ctx request value next) (hc : st.Coherent root)
    (hf : ∀ l, fresh l → l ∉ st.layouts) : State.Moves fresh st next := by
  cases h with
  | prepareArchive => exact .of_live rfl rfl
  | commitArchive _ he =>
    refine .of_live rfl ?_
    simp only [State.live]
    rw [Table.gather_insert, Table.gather_eq (f := Entity.published) (State.entity_eq_ok.mp he).2.1]
  | @release e layout he _ _ _ hp _ =>
    refine .of_dropped rfl ?_
    simp only [State.live]
    rw [Table.gather_insert, Table.gather_eq (f := Entity.published)
      (State.entity_eq_ok.mp he).2.1, hp]
    simp
  | @prepareRecall e anchor layout _ _ _ hu _ =>
    have hn : st.recalls.lookup layout = none := by
      by_contra ho
      obtain ⟨o, ho⟩ := Option.ne_none_iff_exists'.mp ho
      refine hf layout hu (Multiset.mem_add.mpr (.inl (State.mem_live.mpr (.inr ⟨_, o, ho, ?_⟩))))
      exact (hc.recall _ _ ho).1
    refine .of_taken hu rfl ?_
    simp only [State.live]
    rw [Table.gather_insert, Table.erase_of_lookup hn]
    simp
  | @commitRecall target anchor e ho he hp _ _ =>
    refine .of_live rfl ?_
    simp only [State.live]
    rw [Table.gather_insert, Table.gather_eq (f := Entity.published)
      (State.entity_eq_ok.mp he).2.1, hp,
      Table.gather_eq (f := fun owner : RecallOwner => some owner.target.layoutId) ho]
    simp

/-! ## Garbage collection -/

open LocalStorage

section

variable [DecidableEq κ] {s s' : Disk (FileName κ) (Content κ)} {self self' : LocalStorage κ}
  {π : Env (FileName κ) (Content κ)}

omit [DecidableEq κ] in
theorem within_sweep {layouts : List String} :
    (sweep root layouts : Io κ Nat).run.Within FsOp.NoMkdir := by
  induction layouts with
  | nil => trivial
  | cons layout rest ih =>
    refine Prog.within_bind (within_ask.mpr trivial) fun b => ?_
    have last : (do return (← sweep root rest) + 1 : Io κ Nat).run.Within FsOp.NoMkdir :=
      Prog.within_bind ih fun _ => trivial
    cases b with
    | false => exact last
    | true =>
      refine Prog.within_bind ?_ fun _ => last
      exact within_withTransferLock (within_io.mpr trivial) trivial trivial trivial

omit [DecidableEq κ] in
theorem within_adopt {α : Type} {answer : HsmResult α} {P : FsOp (FileName κ) (Content κ) → Prop}
    (uuid : P .uuid) (create : ∀ u, P (.create self.root (.tmp u) (.state next)))
    (sync : ∀ u, P (.syncFile self.root (.tmp u)))
    (rename : ∀ u, P (.rename self.root (.tmp u) .state)) (syncDir : P (.syncDir self.root)) :
    (self.adopt next answer).Within P := by
  have written : (writeJson self.root .state (.state next)).run.Within P := by
    refine Prog.within_bind (within_ask.mpr uuid) fun u => ?_
    refine Prog.within_bind (within_io.mpr (create u)) fun _ => ?_
    refine Prog.within_bind (within_io.mpr (sync u)) fun _ => ?_
    refine Prog.within_bind (within_io.mpr (rename u)) fun _ => ?_
    exact within_mapErr (within_io.mpr syncDir)
  refine Prog.Within.bind (Prog.Within.bind written fun r => ?_) fun r => ?_
  · cases r <;> trivial
  · obtain ⟨r | r, _⟩ := r <;> trivial

/-- A sweep that goes well has removed all listed layouts, if it can tell which are there. -/
theorem wp_sweep (seen : π.statFaults = false) {layouts : List String}
    {s : Disk (FileName κ) (Content κ)} :
    (sweep root layouts : Io κ Nat).run.wp π.machine (fun _ => True)
      (fun r s' => ∀ n, r = .ok n → ∀ l ∈ layouts, s'.dir (layoutDir root l) = false) s := by
  induction layouts generalizing s with
  | nil => exact ⟨trivial, fun _ _ _ hl => (List.not_mem_nil hl).elim⟩
  | cons layout rest ih =>
    have last : ∀ {s₁ : Disk (FileName κ) (Content κ)}, s₁.dir (layoutDir root layout) = false →
        (do return (← sweep root rest) + 1 : Io κ Nat).run.wp π.machine (fun _ => True)
          (fun r s' => ∀ n, r = .ok n → ∀ l ∈ layout :: rest,
            s'.dir (layoutDir root l) = false) s₁ := by
      intro s₁ hd
      apply Prog.wp_run_bind_of
      refine Prog.wp_runs (Prog.wp_mono ih (fun _ h => h) ?_)
      rintro (e | n) s' - h hr
      · exact nofun
      refine ⟨trivial, fun _ _ l hl => ?_⟩
      rcases List.mem_cons.mp hl with rfl | hl
      · by_contra hn
        have := hr.dir_of within_sweep (by simpa using hn)
        simp [hd] at this
      · exact h n rfl l hl
    apply Prog.wp_run_bind_of
    refine wp_ask trivial (fun _ _ => trivial) fun b s₁ h₁ => ?_
    obtain ⟨rfl, rfl⟩ := h₁.existsDir seen
    cases hb : s₁.dir (layoutDir root layout) with
    | false => exact last hb
    | true =>
      apply Prog.wp_run_bind_of
      refine wp_withTransferLock trivial (fun _ _ h => h) (fun _ _ _ => nofun)
        (fun _ _ _ _ => nofun)
        fun hd hl => ?_
      refine wp_io trivial (fun _ _ => trivial) ?_
      rintro (e | ⟨⟩) s₂ h₂
      · exact nofun
      · obtain ⟨-, rfl⟩ := h₂.removeDirAll_ok
        exact last (by simp [Disk.prune, Disk.setLock])

/-- A sweep after which all listed layouts are gone has looked well at each of them. -/
theorem sweep_seen {layouts : List String} (nodup : layouts.Nodup) {n : Nat}
    (h : Runs π.machine (sweep root layouts : Io κ Nat).run s (.ok n) s')
    (gone : ∀ l ∈ layouts, s'.dir (layoutDir root l) = false) :
    Runs (fsMachine π.toPolicy) (sweep root layouts : Io κ Nat).run s (.ok n) s' := by
  induction layouts generalizing s n with
  | nil =>
    obtain ⟨he, rfl⟩ := Runs.ret_iff.mp h
    cases he
    exact .ret _ _
  | cons layout rest ih =>
    obtain ⟨unlisted, nodup⟩ := List.nodup_cons.mp nodup
    have last : ∀ {s₁ : Disk (FileName κ) (Content κ)},
        Runs π.machine (do return (← sweep root rest) + 1 : Io κ Nat).run s₁ (.ok n) s' →
        Runs (fsMachine π.toPolicy) (do return (← sweep root rest) + 1 : Io κ Nat).run s₁
          (.ok n) s' := by
      intro s₁ h
      obtain ⟨m, s₂, hs, h⟩ := Runs.run_bind_ok.mp h
      obtain ⟨he, rfl⟩ := Runs.ret_iff.mp h
      refine Runs.run_bind_ok.mpr ⟨m, s', ih nodup hs fun l hl => gone l (.tail _ hl), ?_⟩
      exact he ▸ .ret _ _
    obtain ⟨there, s₁, look, h⟩ := Runs.run_bind_ok.mp h
    obtain ⟨x, s₂, step, he⟩ := Runs.op_iff.mp look
    obtain ⟨he, rfl⟩ := Runs.ret_iff.mp he
    cases he
    obtain ⟨seen, rfl⟩ := step.existsDir_or
    have looked : there = s₁.dir (layoutDir root layout) := by
      rcases seen with he | ⟨-, rfl⟩
      · exact he
      · by_contra hn
        -- what is passed over stays, as the other layouts lie elsewhere
        have kept : Frame (fun d _ => d = layoutDir root layout) s₁ s' :=
          h.frame (Prog.within_bind (spares_sweep fun l hl d n hd hs =>
            unlisted (layoutDir_suffix (hd ▸ hs) ▸ hl)) fun _ => trivial)
        have := kept.dir _ .ownerLock rfl (by simpa using Ne.symm hn)
        simp [gone layout (.head _)] at this
    have step' : FsStep π.toPolicy.sighted s₁ (.existsDir (layoutDir root layout)) there s₁ :=
      looked ▸ .respond _ "" nofun
    refine Runs.run_bind_ok.mpr ⟨there, s₁, .op step' (.ret _ _), ?_⟩
    cases there with
    | false => exact last h
    | true =>
      obtain ⟨_, s₃, removal, h⟩ := Runs.run_bind_ok.mp h
      exact Runs.run_bind_ok.mpr ⟨_, s₃, removal.seen (within_withTransferLock (within_io.mpr rfl)
        rfl rfl rfl), last h⟩

/-- What a garbage collection leaves alone: all but the listed layouts and the files of the
root itself. -/
def LocalStorage.Unlisted (self : LocalStorage κ) (d : Dir) (n : FileName κ) : Prop :=
  (d ≠ self.root ∨ n = .ownerLock) ∧ ∀ l ∈ self.state.gc, ¬ layoutDir self.root l <:+ d

omit [DecidableEq κ] in
theorem spares_adopt {α : Type} {answer : HsmResult α} {K : Dir → FileName κ → Prop}
    (hk : ∀ n, K self.root n → n = .ownerLock) : (self.adopt next answer).Within
    (FsOp.Spares K) := by
  have tmp : ∀ u, ¬ K self.root (.tmp u) := fun u h => by cases hk _ h
  have state : ¬ K self.root .state := fun h => by cases hk _ h
  exact within_adopt trivial tmp (fun _ => trivial) (fun u => ⟨tmp u, state⟩) trivial

omit [DecidableEq κ] in
theorem spares_collectGarbage : self.collectGarbage.Within (FsOp.Spares self.Unlisted) := by
  unfold LocalStorage.collectGarbage
  cases self.healthy with
  | error e => trivial
  | ok =>
    refine Prog.Within.bind (Prog.within_bind (spares_sweep fun l hl d n hk => hk.2 l hl) fun _ =>
      Prog.within_bind (within_io.mpr trivial) fun _ => trivial) fun r => ?_
    cases r with
    | error e => trivial
    | ok n => exact spares_adopt fun n hk => hk.1.resolve_left fun h => h rfl

theorem adopt_ok {α : Type} {answer : HsmResult α} {a : α}
    (h : Runs π.machine (self.adopt next answer) s (.ok a, self') s') :
    self'.state = next := by
  obtain ⟨⟨r, self₁⟩, s₁, -, h⟩ := Runs.bind_iff.mp h
  cases r with
  | error e => cases h
  | ok => cases h; rfl

/-- A garbage collection that goes well lists nothing. It has removed what was listed exactly if it
has looked well at all of it. -/
theorem collectGarbage_ok (nodup : self.state.gc.Nodup) {n : Nat}
    (h : Runs π.machine self.collectGarbage s (.ok n, self') s') :
    self'.state.gc = [] ∧ ((∀ l ∈ self.state.gc, s'.dir (layoutDir self.root l) = false) ↔
      Runs (fsMachine π.toPolicy) self.collectGarbage s (.ok n, self') s') := by
  unfold LocalStorage.collectGarbage at h ⊢
  cases hh : self.healthy with
  | error e =>
    rw [hh] at h
    cases h
  | ok =>
    simp only [hh] at h ⊢
    obtain ⟨r, s₂, hs, h⟩ := Runs.bind_iff.mp h
    cases r with
    | error e => cases h
    | ok count =>
      obtain ⟨m, s₁, swept, hy⟩ := Runs.run_bind_ok.mp hs
      refine ⟨by rw [adopt_ok h], fun gone => ?_, fun h l hl => ?_⟩
      · have rest : Frame (fun d n => d ≠ self.root ∨ n = .ownerLock) s₁ s' :=
          (hy.frame (Prog.within_bind (within_io.mpr trivial) fun _ => trivial)).trans
            (h.frame (spares_adopt fun n hk => hk.resolve_left fun h => h rfl))
        have gone₁ : ∀ l ∈ self.state.gc, s₁.dir (layoutDir self.root l) = false := by
          intro l hl
          by_contra hn
          have := rest.dir (layoutDir self.root l) .ownerLock (.inr rfl) (by simpa using hn)
          simp [gone l hl] at this
        have swept := sweep_seen nodup swept gone₁
        have hy := hy.seen (Prog.within_bind (within_io.mpr rfl) fun _ => trivial)
        have adopted := h.seen (within_adopt rfl (fun _ => rfl) (fun _ => rfl) (fun _ => rfl) rfl)
        exact Runs.bind_iff.mpr ⟨_, s₂, Runs.run_bind_ok.mpr ⟨m, s₁, swept, hy⟩, adopted⟩
      · obtain ⟨r, s₂, hs, h⟩ := Runs.bind_iff.mp h
        cases r with
        | error e => cases h
        | ok count =>
          obtain ⟨m, s₁, swept, hs⟩ := Runs.run_bind_ok.mp hs
          by_contra hn
          have adopted := h.dir_of (within_adopt trivial (fun _ => trivial) (fun _ => trivial)
            (fun _ => trivial) trivial) (by simpa using hn)
          have synced :=
            hs.dir_of (Prog.within_bind (within_io.mpr trivial) fun _ => trivial) adopted
          have gone := Prog.wp_sound_runs (wp_sweep rfl) swept m rfl l hl
          simp [gone] at synced

/-- The directory lies in a layout up for removal, to which no version of the metadata refers. -/
def World.Swept [Crates] (w : World κ) (root : Dir) (self : LocalStorage κ) (d : Dir) : Prop :=
  ∃ l ∈ self.state.gc, layoutDir root l <:+ d ∧ ∀ st, w.Version root st → ¬ st.Refers root l

end

/-! ## Every reachable world -/

section

variable [DecidableEq κ] [KeyHash κ] [Crates] {π : Policy (FileName κ) (Content κ)}
  {env : Env (FileName κ) (Content κ)}
  {w : World κ}

/-- Every layout has one owner, and a name that has been handed out. -/
structure State.Owned (root : Dir) (i : String → Bool) (st : State κ) : Prop where
  coherent : st.Coherent root
  nodup : st.layouts.Nodup
  issued : ∀ l ∈ st.layouts, i l = true

omit [DecidableEq κ] [KeyHash κ] in
theorem State.Owned.moves {i i' : String → Bool} (h : st.Owned root i) (hc : next.Coherent root)
    (hπ : π.Fresh) (hi : ∀ u, i u = true → i' u = true) (hm : State.Moves (Given π i i') st next) :
    next.Owned root i' := by
  cases hm with
  | kept _ hl =>
    exact ⟨hc, Multiset.nodup_of_le hl h.nodup,
      fun l hm => hi l (h.issued l (Multiset.mem_of_le hl hm))⟩
  | @taken layout hu _ hl =>
    have new : layout ∉ st.layouts := fun hm => by
      have := hu.unissued hπ
      simp [h.issued _ hm] at this
    refine ⟨hc, hl ▸ Multiset.nodup_cons.mpr ⟨new, h.nodup⟩, fun l hm => ?_⟩
    rw [hl] at hm
    rcases Multiset.mem_cons.mp hm with rfl | hm
    · exact hu.2
    · exact hi l (h.issued l hm)

theorem Settles.moves {request : Request} {answer : HsmResult Reply}
    (h : Settles root fresh st request answer (some next)) (hc : st.Coherent root)
    (hf : ∀ l, fresh l → l ∉ st.layouts) : State.Moves fresh st next := by
  cases h with
  | failed => exact .of_live rfl rfl
  | done _ _ he =>
    cases he.moves hc hf with
    | kept hv hl => exact .kept hv hl
    | taken hu hv hl => exact .taken hu hv hl
  | @imported id bytes layout _ hid hu =>
    refine .of_taken hu rfl ?_
    simp only [State.live]
    rw [Table.gather_insert, Table.erase_of_lookup (Finmap.lookup_eq_none.mpr hid)]
    simp [LocalStorage.imported]
  | collected =>
    refine .kept le_rfl (Multiset.le_iff_exists_add.mpr ⟨st.gc, ?_⟩)
    simp [State.layouts, State.live]

theorem State.Owned.settles {i i' : String → Bool} {request : Request} {answer : HsmResult Reply}
    (h : st.Owned root i) (hπ : π.Fresh) (hi : ∀ u, i u = true → i' u = true)
    (hs : Settles root (Given π i i') st request answer (some next)) :
    State.Moves (Given π i i') st next ∧ next.Owned root i' := by
  have hm := hs.moves h.coherent fun l hu hl => by
    have := hu.unissued hπ
    simp [h.issued _ hl] at this
  exact ⟨hm, h.moves (State.Coherent.closed _ _ _ _ _ h.coherent hs) hπ hi hm⟩

/-- A layout that is up for removal and has no owner any more. -/
def State.Dropped (root : Dir) (layout : String) (i : String → Bool) (st : State κ) : Prop :=
  st.Owned root i ∧ i layout = true ∧ layout ∉ st.live

theorem State.Owned.stable (hπ : π.Fresh) :
    Stable π root (fun i (st : State κ) => st.Owned root i) where
  mono hi h := ⟨h.coherent, h.nodup, fun l hl => hi l (h.issued l hl)⟩
  call hi h hs := (h.settles hπ hi hs).2

theorem State.Dropped.stable (hπ : π.Fresh) {layout : String} :
    Stable π root fun i (st : State κ) => st.Dropped root layout i where
  mono hi h := ⟨(State.Owned.stable hπ).mono hi h.1, hi _ h.2.1, h.2.2⟩
  call hi h hs := by
    obtain ⟨hm, ho⟩ := h.1.settles hπ hi hs
    refine ⟨ho, hi _ h.2.1, fun hl => h.2.2 ?_⟩
    cases hm with
    | kept hle _ => exact Multiset.mem_of_le hle hl
    | taken hu he _ =>
      rw [he] at hl
      rcases Multiset.mem_cons.mp hl with rfl | hl
      · have := hu.unissued hπ
        simp [h.2.1] at this
      · exact hl

omit [DecidableEq κ] [KeyHash κ] in
theorem State.Owned.dropped {i : String → Bool} {layout : String} (h : st.Owned root i)
    (hg : layout ∈ st.gc) : st.Dropped root layout i := by
  have hm : layout ∈ (st.gc : Multiset String) := hg
  refine ⟨h, h.issued _ (Multiset.mem_add.mpr (.inr hm)), fun hl => ?_⟩
  exact Multiset.disjoint_left.mp (Multiset.nodup_add.mp h.nodup).2.2 hl hm

omit [DecidableEq κ] [KeyHash κ] in
theorem State.Owned.published {i : String → Bool} {layout : String} (h : st.Owned root i)
    (hp : st.Publishes layout) : st.recalls.lookup layout = none ∧ layout ∉ st.gc := by
  obtain ⟨live, -, apart⟩ := Multiset.nodup_add.mp h.nodup
  refine ⟨?_, fun hg => Multiset.disjoint_left.mp apart (State.mem_live.mpr (.inl hp)) hg⟩
  cases ho : st.recalls.lookup layout with
  | none => rfl
  | some o =>
    have filled : layout ∈ Table.gather (fun owner : RecallOwner => some owner.target.layoutId)
        st.recalls :=
      Table.mem_gather.mpr ⟨_, _, ho, congrArg some (h.coherent.recall _ _ ho).1⟩
    exact (Multiset.disjoint_left.mp (Multiset.nodup_add.mp live).2.2 (Table.mem_gather.mpr hp)
      filled).elim

omit [DecidableEq κ] [KeyHash κ] in
theorem State.Owned.used {i : String → Bool} {layout : String} (h : st.Owned root i)
    (hu : st.Uses layout) : layout ∉ st.gc := fun hg => by
  obtain ⟨-, -, dead⟩ := h.dropped hg
  refine dead (State.mem_live.mpr (hu.imp_right fun hr => ?_))
  obtain ⟨o, ho⟩ := Option.ne_none_iff_exists'.mp hr
  exact ⟨_, o, ho, (h.coherent.recall _ _ ho).1⟩

omit [DecidableEq κ] [KeyHash κ] in
theorem State.Owned.new {i : String → Bool} {a b : String} :
    (State.new a b : State κ).Owned root i := by
  refine ⟨.new, ?_, ?_⟩
  · simp [State.layouts, State.live, State.new]
  · simp [State.layouts, State.live, State.new]

omit [DecidableEq κ] [KeyHash κ] in
theorem State.Dropped.new {i : String → Bool} {layout a b : String} (issued : i layout = true) :
    (State.new a b : State κ).Dropped root layout i :=
  ⟨.new, issued, by simp [State.live, State.new]⟩

theorem World.Reachable.owned (h : w.Reachable env root) (fresh : env.Fresh) :
    w.Keeps env.toPolicy root fun i st => st.Owned root i :=
  h.keeps (State.Owned.stable fresh) fun _ _ _ => .new

/-- In every reachable world no layout is named twice, what has been put up for removal is
never published or filled again, and a garbage collection removes nothing that is referred
to and, if it goes well, lists nothing. It has then removed everything it was to remove exactly
if it has looked well at all of it. -/
theorem layout_ownership (fresh : env.Fresh) (h : w.Reachable env root) :
    (∀ st, w.Version root st → st.layouts.Nodup) ∧
    (∀ self layout w' st, w.handle = some self → layout ∈ self.state.gc →
      World.Steps env root w w' →
      w'.Version root st → layout ∉ st.live ∧ ¬ st.Refers root layout) ∧
    ∀ self, w.handle = some self →
      (∀ s',
        (∃ answer self', Runs env.machine (self.perform .collectGarbage) w.disk
        (answer, self') s') ∨
          Cuts env.machine (self.perform .collectGarbage) w.disk s' →
        (∀ d, w.disk.dir d = true → s'.dir d = false → w.Swept root self d) ∧
        ∀ d n, w.disk.lookup d n ≠ none → s'.lookup d n = none → d = root ∨ w.Swept root self d) ∧
      ∀ n self' s', Runs env.machine (self.perform .collectGarbage) w.disk
        (.ok (.count n), self') s' →
        self'.state.gc = [] ∧ ((∀ l ∈ self.state.gc, s'.dir (layoutDir root l) = false) ↔
          Runs (fsMachine env.toPolicy) (self.perform .collectGarbage) w.disk
            (.ok (.count n), self') s') := by
  have owned := h.owned fresh
  have dropped : ∀ {self layout w' st}, w.handle = some self → layout ∈ self.state.gc →
      World.Steps env root w w' → w'.Version root st → layout ∉ st.live ∧
        ¬ st.Refers root layout := by
    intro self layout w' st hw hg hs hv
    have issued := ((owned.cached self hw).dropped hg).2.1
    have hd := (hs.since owned hw (State.Dropped.stable fresh) (fun i hq => hq.dropped hg)
      fun _ i hle a b => .new (hle layout issued)).version hv
    exact ⟨hd.2.2, fun hr => hd.2.2 (hr.live hd.1.coherent)⟩
  refine ⟨fun st hv => (owned.version hv).nodup, fun _ _ _ _ => dropped, fun self hw => ⟨?_, ?_⟩⟩
  · intro s' hs
    obtain rfl := owned.root_eq self hw
    have frame : Frame self.Unlisted w.disk s' := by
      rcases hs with ⟨answer, self', hs⟩ | hs
      · exact hs.frame (Prog.Within.bind spares_collectGarbage fun _ => trivial)
      · exact hs.frame (Prog.Within.bind spares_collectGarbage fun _ => trivial)
    have unlisted : ∀ {d} {n : FileName κ}, ¬ w.Swept self.root self d →
      d ≠ self.root ∨ n = .ownerLock →
        self.Unlisted d n := fun hn hd =>
      ⟨hd, fun l hl hs => hn ⟨l, hl, hs, fun st hv => (dropped hw hl .refl hv).2⟩⟩
    constructor
    · intro d hd hd'
      by_contra hn
      have := frame.dir d .ownerLock (unlisted hn (.inr rfl)) hd
      simp [hd'] at this
    · intro d n hl hl'
      by_cases hr : d = self.root
      · exact .inl hr
      refine .inr (by_contra fun hn => hl ?_)
      have := frame.now d n (unlisted hn (.inl hr))
      rw [hl'] at this
      exact this.none_right
  · intro n self' s' hs
    obtain rfl := owned.root_eq self hw
    obtain ⟨⟨r, self₁⟩, hr, he⟩ := Runs.of_map hs
    cases r with
    | error e => cases he
    | ok m =>
      cases he
      have nodup : self.state.gc.Nodup :=
        Multiset.coe_nodup.mp (Multiset.nodup_add.mp (owned.cached self hw).nodup).2.1
      obtain ⟨lists, gone⟩ := collectGarbage_ok nodup hr
      refine ⟨lists, gone.trans ⟨fun h => Runs.bind_iff.mpr ⟨_, _, h, .ret _ _⟩, fun h => ?_⟩⟩
      obtain ⟨⟨r, self₁⟩, hr, he⟩ := Runs.of_map h
      cases r with
      | error e => cases he
      | ok m =>
        cases he
        exact hr

end

namespace Reference

/-- Looks at paths can fail as well. -/
def shrouded : Env (FileName Keyed) (Content Keyed) := ⟨anything, true⟩

theorem recalling_gc : ∃ w self, recalling = some w ∧ w.handle = some self ∧
    w.Reachable shrouded ["s"] ∧ self.state.gc = ["u0"] := by
  obtain ⟨w, self, hw, hs, -⟩ := recalling_reachable
  have hg : (recalling.bind fun w => w.handle.map fun self => self.state.gc) = some ["u0"] := by
    decide +kernel
  rw [hw, Option.bind_some, hs, Option.map_some, Option.some.injEq] at hg
  exact ⟨w, self, hw, hs, recalling_runs anything_generous rfl hw, hg⟩

theorem layout_ownership_recalling : ∃ w self, recalling = some w ∧ w.handle = some self ∧
    self.state.gc = ["u0"] ∧ self.state.layouts.Nodup ∧
    ∀ w' st, World.Steps shrouded ["s"] w w' → w'.Version ["s"] st → ¬ st.Refers ["s"] "u0" := by
  obtain ⟨w, self, hw, hs, h, hg⟩ := recalling_gc
  obtain ⟨nodup, dropped, -⟩ := layout_ownership anything_fresh h
  exact ⟨w, self, hw, hs, hg, nodup _ (.cached hs rfl),
    fun w' st hw' hv => (dropped self "u0" w' st hs (by simp [hg]) hw' hv).2⟩

/-- A garbage collection that cannot look at the layout leaves it where it is, lists it no more
and answers that all is well. -/
theorem garbage_overlooked : ¬ ∀ (w : World Keyed) (self self' : LocalStorage Keyed) (n : Nat)
    (s' : Disk (FileName Keyed) (Content Keyed)), w.Reachable shrouded ["s"] →
    w.handle = some self →
    Runs shrouded.machine (self.perform .collectGarbage) w.disk (.ok (.count n), self') s' →
    ∀ l ∈ self.state.gc, s'.dir (layoutDir ["s"] l) = false := by
  intro h
  have there : (recalling.bind fun w => w.handle.bind fun self =>
      let x := (self.perform .collectGarbage).overlook.exec (fun _ => false) 100 ["t8"] w.disk
      x.1.bind fun y => y.1.toOption.map fun _ => x.2.dir ["u0", "layouts", "s"]) = some true := by
    decide +kernel
  obtain ⟨w, self, hw, hs, reachable, hg⟩ := recalling_gc
  rw [hw, Option.bind_some, hs, Option.bind_some] at there
  obtain ⟨⟨answer, self'⟩, hx, there⟩ := Option.bind_eq_some_iff.mp there
  obtain ⟨reply, ok, there⟩ := Option.map_eq_some_iff.mp there
  have run := Prog.overlook_runs (Prog.exec_runs (π := anything) anything_generous
    (.inr fun _ => rfl) hx)
  obtain ⟨⟨r, self₁⟩, -, he⟩ := Runs.of_map run
  cases he
  cases r with
  | error e => cases ok
  | ok n =>
    have := h w self self₁ n _ reachable hs run "u0" (by simp [hg])
    cases this.symm.trans (Option.some.inj there)

end Reference

end HsmRs
