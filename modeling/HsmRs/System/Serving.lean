import HsmRs.Archive.Serving
import HsmRs.Storage.Orphans
import HsmRs.Storage.Serving
import HsmRs.System.Releasing
import HsmRs.System.World

/-! # Workflows on stores that serve

The rules for workflows of the engine that end well on local stores, and what the
stores keep from one call to the next.
-/

namespace HsmRs

variable {κ : Type}

namespace State

variable {st next : State κ} {data : DataKey} {e x : Entity}

theorem Resting.turn [DecidableEq κ] (h : st.Resting data e) (hd : x.public.data = data)
    (id : next.storageId = st.storageId) (ns : next.namespace = st.namespace)
    (entities : next.entities = st.entities.insert data.entity.entity x)
    (views : ∀ v o, next.views.lookup v = some o → st.views.lookup v = some o)
    (recalls : ∀ l o, next.recalls.lookup l = some o → st.recalls.lookup l = some o) :
    next.Resting data x where
  current := State.entity_insert h.current hd id ns entities
  unviewed := by
    rw [Table.not_any_iff]
    exact fun v o ho => Table.not_any_iff.mp h.unviewed v o (views v o ho)
  unrecalled := by
    rw [Table.not_any_iff]
    exact fun l o ho => Table.not_any_iff.mp h.unrecalled l o (recalls l o ho)

end State

variable [DecidableEq κ] [KeyHash κ] [Crates] {π : Policy (FileName κ) (Content κ)}
  {s : Disk (FileName κ) (Content κ)} {stores : Stores κ}

theorem State.schema_closed {root : Dir} : Closed root fun st : State κ => st.schema = 1 := by
  intro fresh st request answer next h hs
  cases hs with
  | failed => exact h
  | done _ _ he => cases he <;> exact h
  | imported => exact h
  | collected => exact h

/-- No operation fails, a transfer copies what it reads, and names are not empty. -/
structure Policy.Kind (π : Policy (FileName κ) (Content κ)) : Prop extends π.Smooth where
  copies : π.exact = true
  named : ∀ s u, π.uuid s u → u ≠ ""

omit [DecidableEq κ] [KeyHash κ] [Crates] in
theorem drawing_kind {names : List String} (named : ∀ u ∈ names, u ≠ "") :
    (drawing names : Policy (FileName κ) (Content κ)).Kind :=
  { drawing_smooth with
    copies := rfl
    named := fun _ u h => named u (drawing_draws.mem h) }

/-- Hands out every unused name that is not empty. -/
def plain : Policy (FileName κ) (Content κ) where
  uuid s u := s.Unused u ∧ u ≠ ""
  faults := false
  exact := true

omit [DecidableEq κ] [KeyHash κ] [Crates] in
theorem plain_fresh : (plain : Policy (FileName κ) (Content κ)).Fresh := fun _ _ h => h.1.issued

omit [KeyHash κ] [Crates] [DecidableEq κ] in
theorem plain_kind : (plain : Policy (FileName κ) (Content κ)).Kind where
  faultless := rfl
  dir _ _ d h := h.1.dir d
  tmp _ _ d h := h.1.file d _ (by simp [FileName.bears])
  receiptTmp _ _ d h := h.1.file d _ (by simp [FileName.bears])
  copies := rfl
  named _ _ h := h.2

omit [KeyHash κ] [Crates] [DecidableEq κ] in
theorem plain_supplies : (plain : Policy (FileName κ) (Content κ)).Supplies := fun _ hs =>
  (hs [""]).imp fun _ hu => ⟨hu.2, fun he => hu.1 (List.mem_singleton.mpr he)⟩

omit [DecidableEq κ] [KeyHash κ] [Crates] in
theorem LocalStorage.completed_none {self : LocalStorage κ}
    {ctx : OperationContext} {data : DataKey}
    {action : ManagedAction} (healthy : self.poisoned = false)
    (qualified : LocalStorage.qualify ctx = .ok ())
    (unfinished : self.state.completed.lookup ctx.operationId = none)
    (owns : self.state.Owns data.entity) : self.completed ctx data action = .ok none := by
  unfold LocalStorage.completed
  rw [qualified, LocalStorage.healthy_eq_ok.mpr healthy,
    State.validateKey_eq_ok.mpr owns, unfinished]
  rfl

omit [DecidableEq κ] [KeyHash κ] [Crates] in
theorem LocalStorage.completed_some {self : LocalStorage κ}
    {ctx : OperationContext} {data : DataKey}
    {action : ManagedAction} {result : EntityState} (healthy : self.poisoned = false)
    (qualified : LocalStorage.qualify ctx = .ok ())
    (finished : self.state.completed.lookup ctx.operationId = some ⟨ctx, data, action, result⟩)
    (owns : self.state.Owns data.entity) : self.completed ctx data action = .ok (some result) := by
  unfold LocalStorage.completed
  rw [qualified, LocalStorage.healthy_eq_ok.mpr healthy, State.validateKey_eq_ok.mpr owns, finished]
  simp [bind, Except.bind]

/-! ## Workflows -/

namespace Workflow

variable {α β : Type} {w : Workflow α} {f : α → Workflow β}
  {C : Disk (FileName κ) (Content κ) → Prop}
  {Q : β × Stores κ → Disk (FileName κ) (Content κ) → Prop}
  {R : α × Stores κ → Disk (FileName κ) (Content κ) → Prop}
  {T : HsmResult (β × Stores κ) → Disk (FileName κ) (Content κ) → Prop}

theorem endures_bind (h : Endures (fsMachine π) C (tried (w.locally stores)) s fun x s' =>
      Endures (fsMachine π) C (tried ((f x.1).locally x.2)) s' Q) :
    Endures (fsMachine π) C (tried ((w >>= f).locally stores)) s Q := Endures.interp_bind h

theorem wp_bind (h : Endures (fsMachine π) C (tried (w.locally stores)) s fun x s' =>
      (tried ((f x.1).locally x.2)).run.wp (fsMachine π) C T s') :
    (tried ((w >>= f).locally stores)).run.wp (fsMachine π) C T s := wp_interp_bind h

theorem wp_error (h : (tried (w.locally stores)).run.wp (fsMachine π) C
      (fun r s' => ∃ e, r = .error e ∧ T (.error e) s') s) :
    (tried ((w >>= f).locally stores)).run.wp (fsMachine π) C T s := wp_interp_error h

theorem wp_check {r : HsmResult α} {a : α} (hr : r = .ok a)
    (h : (tried ((f a).locally stores)).run.wp (fsMachine π) C T s) :
    (tried ((liftM r >>= f : Workflow β).locally stores)).run.wp (fsMachine π) C T s := by
  subst hr
  exact h

theorem wp_guard {c : Prop} [Decidable c] {e : HsmError} {k : α → Workflow β} {q : Workflow β}
    (hc : ¬ c) (h : (tried (q.locally stores)).run.wp (fsMachine π) C T s) :
    (tried ((if c then throw e >>= k else q : Workflow β).locally stores)).run.wp
      (fsMachine π) C T s := by
  rw [if_neg hc]
  exact h

theorem endures_pure {b : β} (now : C s) (h : Q (b, stores) s) :
    Endures (fsMachine π) C (tried ((pure b : Workflow β).locally stores)) s Q :=
  endures_tried.mpr ⟨now, b, rfl, h⟩

theorem endures_check {r : HsmResult α} {a : α} (hr : r = .ok a)
    (h : Endures (fsMachine π) C (tried ((f a).locally stores)) s Q) :
    Endures (fsMachine π) C (tried ((liftM r >>= f : Workflow β).locally stores)) s Q :=
      wp_check hr h

theorem endures_guard {c : Prop} [Decidable c] {e : HsmError} {k : α → Workflow β} {q : Workflow β}
    (hc : ¬ c) (h : Endures (fsMachine π) C (tried (q.locally stores)) s Q) :
    Endures (fsMachine π) C
      (tried ((if c then throw e >>= k else q : Workflow β).locally stores)) s Q := wp_guard hc h

theorem endures_call {c : Call} {g : c.Ans → HsmResult β}
    (h : (Stores.answer c stores).wp (fsMachine π) C
      (fun x s' => ∃ b, g x.1 = .ok b ∧ Q (b, x.2) s') s) :
    Endures (fsMachine π) C
      (tried (Workflow.locally (ExceptT.mk (.op c fun x => .ret (g x))) stores)) s Q :=
  Endures.interp_op h

theorem succeeds_of_runs (h : ∀ r stores' s',
      Runs (fsMachine π) (w.locally stores) s (r, stores') s' →
      ∃ a, r = .ok a ∧ R (a, stores') s') :
    Succeeds (fsMachine π) (tried (w.locally stores)) s R :=
  succeeds_tried.mpr (Prog.wp_of_runs (fun x s' hr => h x.1 x.2 s' hr) fun _ _ => trivial)

theorem endures_completed {ctx : OperationContext} {data : DataKey} {action : ManagedAction}
    {r : Option EntityState}
    {Q : Option EntityState × Stores κ → Disk (FileName κ) (Content κ) → Prop} (now : C s)
    (hr : stores.storage.completed ctx data action = .ok r) (h : Q (r, stores) s) :
    Endures (fsMachine π) C (tried ((HsmEngine.completed ctx data action).locally stores)) s Q :=
  endures_call (c := .storage (.completed ctx data action)) (g := id) ⟨now, r, hr, h⟩

theorem endures_inspectEntity {entity : EntityKey} {r : EntityState}
    {Q : EntityState × Stores κ → Disk (FileName κ) (Content κ) → Prop} (now : C s)
    (hr : stores.storage.inspect entity = .ok r) (h : Q (r, stores) s) :
    Endures (fsMachine π) C (tried ((HsmEngine.inspectEntity entity).locally stores)) s Q :=
  endures_call (c := .storage (.inspect entity)) (g := id) ⟨now, r, hr, h⟩

theorem endures_storage {c : StorageCall} {g : c.Ans → HsmResult β}
    {p : Prog (LocalSig κ) (HsmResult β × LocalStorage κ)}
    (hp : stores.storageCall c >>= (fun x => .ret (g x.1, x.2)) = stores.onStorage p)
    (h : Endures (fsMachine π) C (tried p) s fun x s' =>
      Q (x.1, { stores with storage := x.2 }) s') :
    Endures (fsMachine π) C
      (tried (Workflow.locally (ExceptT.mk (.op (.storage c) fun x => .ret (g x))) stores))
        s Q := by
  refine endures_call ?_
  have hw : (stores.onStorage p).wp (fsMachine π) C
      (fun x s' => ∃ b, x.1 = .ok b ∧ Q (b, x.2) s') s := by
    refine Prog.wp_bind.mpr (Prog.wp_mono (endures_tried.mp h) (fun _ h => h) ?_)
    rintro ⟨_, self⟩ s' now ⟨b, rfl, hq⟩
    exact ⟨now, b, rfl, hq⟩
  rw [← hp, Prog.wp_bind] at hw
  exact Prog.wp_mono hw (fun _ h => h) fun _ _ _ h => h.2

theorem endures_backend {c : BackendCall} {g : c.Ans → HsmResult β}
    (h : (Stores.backendCall stores.archive c).wp (fsMachine π) C
      (fun x s' => ∃ b, g x = .ok b ∧ Q (b, stores) s') s) :
    Endures (fsMachine π) C
      (tried (Workflow.locally (ExceptT.mk (.op (.backend c) fun x => .ret (g x))) stores))
        s Q := by
  refine endures_call (Prog.wp_bind.mpr (Prog.wp_mono h (fun _ h => h) ?_))
  exact fun x s' now hq => ⟨now, hq⟩

theorem endures_copy {ctx : OperationContext} {source destination : DataEndpoint}
    {Q : TransferEvidence × Stores κ → Disk (FileName κ) (Content κ) → Prop}
    (h : Endures (fsMachine π) C (LocalDataMover.copy ctx source destination) s fun x s' =>
      Q (x, stores) s') :
    Endures (fsMachine π) C
      (tried ((HsmEngine.copy ctx source destination).locally stores)) s Q := by
  refine endures_call (c := .copy ctx source destination) (g := id) ?_
  refine Prog.wp_bind.mpr (Prog.wp_mono h (fun _ h => h) ?_)
  exact fun x s' now hq => ⟨now, hq⟩

theorem wp_copy {ctx : OperationContext} {source destination : DataEndpoint} {e : HsmError}
    (h : (LocalDataMover.copy ctx source destination : Io κ _).run.wp (fsMachine π) C
      (fun r _ => r = .error e) s) :
    (tried ((HsmEngine.copy ctx source destination).locally stores)).run.wp (fsMachine π) C
      (fun r _ => r = .error e) s := by
  have answers : (Stores.answer (.copy ctx source destination) stores).wp (fsMachine π) C
      (fun x s' => (id x.1 : HsmResult TransferEvidence).map (·, x.2) = .error e) s := by
    refine Prog.wp_bind.mpr (Prog.wp_mono h (fun _ h => h) ?_)
    rintro _ s' now rfl
    exact ⟨now, rfl⟩
  exact wp_interp_op answers

end Workflow

/-! ## Both stores -/

omit [Crates] in
theorem Roots.off_top {roots : Roots} : ¬ roots.storage <:+ [] := fun h =>
  roots.apart (List.suffix_nil.mp h ▸ List.nil_suffix)

/-- Both stores serve, each below its own root. -/
structure Stores.Serving (roots : Roots) (stores : Stores κ) (s : Disk (FileName κ) (Content κ)) :
    Prop where
  storage : stores.storage.Serving s
  archive : stores.archive.Serving s
  root : stores.storage.root = roots.storage
  root' : stores.archive.root = roots.archive
  schema : stores.storage.state.schema = 1
  top : s.dir [] = true
  identity : ∃ x, s.lookup stores.archive.root .backendId = some ⟨.text stores.archive.id, x⟩

namespace Stores.Serving

variable {roots : Roots} {s' : Disk (FileName κ) (Content κ)} {next : State κ}
  {storage : LocalStorage κ} {receipt : ArchiveReceipt} {b : Bytes} {payload d : Dir}

omit [KeyHash κ] [Crates] [DecidableEq κ] in
theorem spared (h : stores.Serving roots s) {n : FileName κ} (hn : ¬ n.IsTemp)
    (hd : s.dir d = true) (below : stores.archive.root <:+ d) :
    LocalStorage.Spared stores.storage.root s d n :=
  ⟨⟨hn, hd⟩, .inr (h.root ▸ Roots.off (h.root' ▸ below))⟩

omit [KeyHash κ] [Crates] [DecidableEq κ] in
theorem dir (h : stores.Serving roots s) : s.dir stores.archive.root = true := by
  obtain ⟨x, hx⟩ := h.identity
  exact Disk.dir_of_lookup (n := .backendId) (by simp [hx])

omit [KeyHash κ] [Crates] [DecidableEq κ] in
theorem frame {K : Dir → FileName κ → Prop} (h : stores.Serving roots s) (hf : Frame K s s')
    (state : ∀ d, K d .state) (identity : ∀ d, K d .backendId) (hk : s'.locked = s.locked) :
    stores.Serving roots s' where
  storage := h.storage.frame hf (state _) (identity _) hk
  archive := h.archive.frame hf (fun _ _ _ => identity _) fun d => hk ▸ h.archive.idle d
  root := h.root
  root' := h.root'
  schema := h.schema
  top := hf.dir _ _ (identity _) h.top
  identity := hf.still (identity _) h.identity

omit [KeyHash κ] [Crates] [DecidableEq κ] in
theorem turned (h : stores.Serving roots s) (ht : stores.storage.Turned next s s' storage)
    (schema : next.schema = stores.storage.state.schema) :
    Stores.Serving roots { stores with storage } s' where
  storage := ht.serving
  archive := h.archive.frame ht.spares (fun _ => h.spared id) ht.serving.idle
  root := ht.handle ▸ h.root
  root' := h.root'
  schema := by rw [ht.handle]; exact schema.trans h.schema
  top := ht.spares.dir _ .data ⟨⟨id, h.top⟩, .inl rfl⟩ h.top
  identity := ht.spares.still (h.spared id h.dir (List.suffix_refl _)) h.identity

omit [DecidableEq κ] in
theorem archived (h : stores.Serving roots s) (ht : stores.storage.Turned next s s' storage)
    (ha : stores.archive.Archived receipt b payload s) :
    stores.archive.Archived receipt b payload s' :=
  ha.frame ht.spares (h.spared id h.archive.objects (List.suffix_cons _ _))
    (h.spared id ha.holds.dir ha.below)

end Stores.Serving

end HsmRs
