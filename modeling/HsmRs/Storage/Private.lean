import HsmRs.Storage.Patches
import HsmRs.Storage.Residency

/-! # Effects keep to their entity

The effects of the protected steps on metadata that look the same to their entity and
operation: they do the same on the layouts of the entity, and change the metadata by the
same patch.
-/

namespace HsmRs

variable {κ α : Type}

inductive State.Private (root : Dir) (entity : EntityKey) (N : String → Prop) (st : State κ) :
    Dir → Prop where
  | new {u : String} : N u → Private root entity N st (layoutDir root u)
  | published {e : Entity} {l : String} : st.entities.lookup entity.entity = some e →
      e.public.data.entity = entity → e.published = some l →
        Private root entity N st (layoutDir root l)
  | recalled {l : String} {o : RecallOwner} : st.recalls.lookup l = some o →
      o.target.data.entity = entity → Private root entity N st (layoutDir root l)

theorem State.Private.ne_root {root : Dir} {entity : EntityKey} {N : String → Prop} {st : State κ}
    {d : Dir} (h : st.Private root entity N d) : d ≠ root ∧ d ≠ layoutsDir root := by
  have layout : ∀ l, layoutDir root l ≠ root ∧ layoutDir root l ≠ layoutsDir root := fun l =>
    ⟨layoutDir_ne_root, by simp [layoutDir]⟩
  cases h <;> exact layout _

/-! ## Helpers -/

section Helpers

variable {P Q : Dir → Prop} {N : String → Prop} {d : Dir} {n : FileName κ} {R : α → α → Prop}

abbrev Io.Shared (P Q : Dir → Prop) (N : String → Prop) (R : α → α → Prop) (p q : Io κ α) : Prop :=
  p.run.Twin (FsOp.Shared P Q N) (Agree R) q.run

theorem Io.shared {p : Io κ α} (hp : p.run.Within (FsOp.Inside P Q)) : Io.Shared P Q N Eq p p :=
  (hp.shared (N := N)).mono fun x _ h => h ▸ Agree.refl Eq.refl x

theorem Io.shared_liftM {x y : HsmResult α} (h : Agree R x y) :
    Io.Shared P Q N R (liftM x : Io κ α) (liftM y) := by
  cases x <;> cases y
  · exact .ret h
  · exact h.elim
  · exact h.elim
  · exact .ret h

theorem shared_syncFile (hd : P d) : Io.Shared P Q N Eq (syncFile d n) (syncFile d n) :=
  Io.shared (within_io.mpr hd)

theorem shared_syncDir (hd : P d ∨ Q d) : Io.Shared P Q N Eq (syncDir d : Io κ Unit) (syncDir d) :=
  Io.shared (within_io.mpr hd)

theorem inside_digestFile [Crates] (hd : P d) :
    (digestFile d : Io κ _).run.Within (FsOp.Inside P Q) := by
  refine Prog.within_bind (within_io.mpr hd) fun c => ?_
  cases c <;> trivial

theorem inside_writeJson (hd : P d) {v : Content κ} :
    (writeJson d n v : Io κ Unit).run.Within (FsOp.Inside P Q) :=
  Prog.within_bind (within_ask.mpr trivial) fun _ =>
    Prog.within_bind (within_io.mpr hd) fun _ =>
      Prog.within_bind (within_io.mpr hd) fun _ =>
        Prog.within_bind (within_io.mpr hd) fun _ => within_mapErr (within_io.mpr (.inl hd))

theorem shared_uuid : Io.Shared P Q N (fun u v => u = v ∧ N u) (uuid : Io κ String) uuid :=
  .op .uuid fun _ _ hu => .ret hu

theorem shared_newLayout (hd : Q d) (hP : ∀ u, N u → P (u :: d)) :
    Io.Shared P Q N (fun u v => u = v ∧ N u) (newLayout d : Io κ String) (newLayout d) := by
  unfold newLayout
  refine shared_uuid.run_bind ?_
  rintro u _ ⟨rfl, hu⟩
  refine Prog.Twin.run_bind (Io.shared (within_io.mpr ⟨hP u hu, .inr hd⟩)) fun _ _ _ => ?_
  refine (shared_syncDir (.inr hd)).run_bind fun _ _ _ => ?_
  exact .ret ⟨rfl, hu⟩

theorem shared_withTransferLock {p q : Io κ α} (hd : P d) (h : Io.Shared P Q N R p q) :
    Io.Shared P Q N R (withTransferLock d p) (withTransferLock d q) := by
  unfold withTransferLock
  refine Prog.Twin.run_bind (Io.shared (within_io.mpr (.inl hd))) fun _ _ _ => ?_
  have locked : Io.Shared P Q N Eq
      (tryLock d .transferLock "local data session active: " : Io κ Unit)
      (tryLock d .transferLock "local data session active: ") := Io.shared ⟨hd, fun _ => trivial⟩
  refine locked.run_bind fun _ _ _ => ?_
  refine h.bind fun r r' hr => .op (.same hd (by simp)) fun _ _ _ => .ret hr

end Helpers

/-! ## The metadata -/

section

variable [DecidableEq κ] [KeyHash κ] {entity : EntityKey} {op : String} {N : String → Prop}
  {st st' : State κ} {ctx : OperationContext}

def Alters (entity : EntityKey) (op : String) (N : String → Prop) (st st' : State κ)
    (x y : α × State κ) : Prop :=
  x.1 = y.1 ∧ ∃ p : Patch κ, p.Confined entity op N st ∧ p.step = none ∧
    x.2 = p.apply st ∧ y.2 = p.apply st'

namespace State.Unseen

variable {data : DataKey}

theorem validateKey (h : st.Unseen entity op st') (e : EntityKey) :
    st'.validateKey e = st.validateKey e := by
  unfold State.validateKey
  rw [h.storageId, h.namespace]

theorem entity_eq (h : st.Unseen entity op st') (hd : data.entity = entity) :
    st'.entity data = st.entity data := by
  unfold State.entity
  rw [h.validateKey]
  cases hv : st.validateKey data.entity with
  | error e => rfl
  | ok =>
    subst hd
    rw [h.entities (validateKey_eq_ok.mp hv)]

theorem finish (h : st.Unseen entity ctx.operationId st') {next next' : State κ}
    (hn : next.completed = st.completed) (hn' : next'.completed = st'.completed)
    {action : ManagedAction} {state : EntityState} :
    Agree (fun a b => a = next.complete ctx data action state ∧
        b = next'.complete ctx data action state)
      (next.finish ctx data action state) (next'.finish ctx data action state) := by
  unfold State.finish
  rw [hn, hn', h.completed]
  cases st.completed.lookup ctx.operationId with
  | none => exact ⟨by rw [← hn]; rfl, by rw [← hn']; rfl⟩
  | some old =>
    dsimp only
    split
    · exact Eq.refl _
    · exact ⟨by rw [← hn]; rfl, by rw [← hn']; rfl⟩

/-! ### Patches of the effects -/

theorem attachAnchor {view : DataView} {receipt : ArchiveReceipt} {owner : ViewOwner}
    (h : st.Unseen view.data.entity ctx.operationId st')
    (hl : st.views.lookup view.viewId = some owner) (ho : owner.view = view) :
    Agree (Alters view.data.entity ctx.operationId N st st') (st.attachAnchor ctx view receipt)
      (st'.attachAnchor ctx view receipt) := by
  unfold State.attachAnchor
  rw [h.entity_eq rfl]
  refine (Agree.self _).bind ?_
  rintro e _ ⟨rfl, he⟩
  have owns := (entity_eq_ok.mp he).1
  refine Agree.guard Iff.rfl fun _ => ?_
  rw [h.entities owns]
  refine (Agree.self _).bind ?_
  rintro e _ ⟨rfl, -⟩
  refine Agree.guard Iff.rfl fun _ => ?_
  dsimp only
  refine Agree.bind (h.finish ?_ ?_) ?_
  · rfl
  · rfl
  rintro _ _ ⟨rfl, rfl⟩
  refine ⟨rfl,
    ⟨some (view.data.entity.entity, some { e with «public» := e.public.attached receipt }),
    some (view.viewId, none), none, none, some (ctx.operationId,
      some ⟨ctx, view.data, .archive receipt.key, e.public.attached receipt⟩), []⟩,
        ⟨?_, .drop hl (ho ▸ rfl), .keep, ?_, ?_⟩, rfl, ?_, ?_⟩
  · exact fun id hid => ⟨Table.edits_iff.mp hid, owns⟩
  · exact fun k hk => (Table.not_edits hk).elim
  · exact fun i => Table.edits_iff.mp
  · simp only [Patch.apply, Table.edit, List.append_nil]
    rfl
  · simp only [Patch.apply, Table.edit, List.append_nil]
    rfl

theorem releasable {expected : EntityState} (h : st.Unseen expected.data.entity op st') :
    st'.releasable expected = st.releasable expected := by
  refine (Agree.eq (x := st.releasable expected) ?_).symm
  unfold State.releasable
  rw [h.entity_eq rfl]
  refine (Agree.self _).bind ?_
  rintro e _ ⟨rfl, -⟩
  refine Agree.guard Iff.rfl fun _ => ?_
  refine Agree.guard (or_congr (h.views _ rfl).symm (h.recalls _ rfl).symm) fun _ => ?_
  exact Agree.refl Eq.refl _

theorem detach {expected : EntityState} {layout : String}
    (h : st.Unseen expected.data.entity ctx.operationId st') (owns : st.Owns expected.data.entity) :
    Agree (Alters expected.data.entity ctx.operationId N st st') (st.detach ctx expected layout)
      (st'.detach ctx expected layout) := by
  unfold State.detach
  rw [h.entities owns]
  refine (Agree.self _).bind ?_
  rintro e _ ⟨rfl, -⟩
  dsimp only
  refine Agree.bind (h.finish ?_ ?_) ?_
  · rfl
  · rfl
  rintro _ _ ⟨rfl, rfl⟩
  refine ⟨rfl,
    ⟨some (expected.data.entity.entity, some ⟨e.public.released, none⟩), none, none, none,
    some (ctx.operationId, some ⟨ctx, expected.data, .release, e.public.released⟩), [layout]⟩,
      ⟨?_, .keep, .keep, ?_, ?_⟩, rfl, ?_, ?_⟩
  · exact fun id hid => ⟨Table.edits_iff.mp hid, owns⟩
  · exact fun k hk => (Table.not_edits hk).elim
  · exact fun i => Table.edits_iff.mp
  · rfl
  · rfl

theorem recallable {expected : EntityState} {anchor : ArchiveReceipt}
    (h : st.Unseen expected.data.entity op st') :
    st'.recallable expected anchor = st.recallable expected anchor := by
  refine (Agree.eq (x := st.recallable expected anchor) ?_).symm
  unfold State.recallable
  rw [h.entity_eq rfl]
  refine (Agree.self _).bind ?_
  rintro e _ ⟨rfl, -⟩
  refine Agree.guard Iff.rfl fun _ => ?_
  by_cases hr : st.recalls.Any fun r => r.target.data = expected.data
  · rw [if_pos hr, if_pos ((h.recalls _ rfl).mpr hr)]
    exact Eq.refl _
  · rw [if_neg hr, if_neg (hr ∘ (h.recalls _ rfl).mp)]
    exact Eq.refl _

theorem sealable {owner : RecallOwner} {target : RecallTarget} {evidence : TransferEvidence}
    {length : Nat} {digest : ContentDigest} (h : st.Unseen target.data.entity op st') :
    st'.sealable owner target evidence length digest =
      st.sealable owner target evidence length digest := by
  unfold State.sealable
  rw [h.entity_eq rfl]

theorem publish {target : RecallTarget} {owner : RecallOwner}
    (h : st.Unseen target.data.entity ctx.operationId st') (owns : st.Owns target.data.entity)
    (hl : st.recalls.lookup target.layoutId = some owner) (ho : owner.target = target) :
    Agree (Alters target.data.entity ctx.operationId N st st') (st.publish ctx target)
      (st'.publish ctx target) := by
  unfold State.publish
  rw [h.entities owns]
  refine (Agree.self _).bind ?_
  rintro e _ ⟨rfl, -⟩
  dsimp only
  refine Agree.bind (h.finish ?_ ?_) ?_
  · rfl
  · rfl
  rintro _ _ ⟨rfl, rfl⟩
  refine ⟨rfl,
    ⟨some (target.data.entity.entity, some ⟨e.public.recalled, some target.layoutId⟩), none,
    some (target.layoutId, none), none, some (ctx.operationId,
      some ⟨ctx, target.data, .«recall» target.archive, e.public.recalled⟩), []⟩,
        ⟨?_, .keep, .drop hl (ho ▸ rfl), ?_, ?_⟩, rfl, ?_, ?_⟩
  · exact fun id hid => ⟨Table.edits_iff.mp hid, owns⟩
  · exact fun k hk => (Table.not_edits hk).elim
  · exact fun i => Table.edits_iff.mp
  · simp only [Patch.apply, Table.edit, List.append_nil]
    rfl
  · simp only [Patch.apply, Table.edit, List.append_nil]
    rfl

end State.Unseen

/-! ## The effects -/

section Effects

variable [Crates] {root : Dir}

open LocalStorage

theorem shared_prepareArchive {data : DataKey} (h : st.Unseen data.entity ctx.operationId st') :
    Io.Shared (st.Private root data.entity N) (· = layoutsDir root) N
      (Alters data.entity ctx.operationId N st st') (prepareArchiveEffect root ctx data st)
      (prepareArchiveEffect root ctx data st') := by
  unfold prepareArchiveEffect
  rw [h.entity_eq rfl]
  refine (Io.shared_liftM (Agree.self _)).run_bind ?_
  rintro e _ ⟨rfl, he⟩
  refine (Io.shared_liftM (Agree.self _)).run_bind ?_
  rintro l _ ⟨rfl, hl⟩
  refine Prog.Twin.run_guard (h.views _ rfl).symm fun _ => ?_
  refine shared_uuid.run_bind ?_
  rintro u _ ⟨rfl, hu⟩
  refine .ret ⟨rfl, ⟨none, some (u, some ⟨ctx, data, u, e.public.length, e.public.digest,
    endpoint (layoutDir root l)⟩), none, none, none, []⟩,
    ⟨?_, .store hu rfl, .keep, ?_, ?_⟩, rfl, ?_, ?_⟩
  · exact fun id hid => (Table.not_edits hid).elim
  · exact fun k hk => (Table.not_edits hk).elim
  · exact fun i hi => (Table.not_edits hi).elim
  · simp only [Patch.apply, Table.edit, List.append_nil]
  · simp only [Patch.apply, Table.edit, List.append_nil]

theorem shared_commitArchive {view : DataView} {receipt : ArchiveReceipt}
    (h : st.Unseen view.data.entity ctx.operationId st') (hc : st.Coherent root)
    (hv : st'.views.lookup view.viewId = st.views.lookup view.viewId) :
    Io.Shared (st.Private root view.data.entity N) (· = layoutsDir root) N
      (Alters view.data.entity ctx.operationId N st st') (commitArchiveEffect ctx view receipt st)
      (commitArchiveEffect ctx view receipt st') := by
  unfold commitArchiveEffect
  rw [hv]
  refine (Io.shared_liftM (Agree.self _)).run_bind ?_
  rintro owner _ ⟨rfl, ho⟩
  rw [HsmResult.okOr_eq_ok] at ho
  refine Prog.Twin.run_guard Iff.rfl fun hn => ?_
  simp only [not_or, not_not, ne_eq] at hn
  refine (Io.shared_liftM (Agree.self _)).run_bind ?_
  rintro source _ ⟨rfl, hs⟩
  obtain ⟨-, e, l, he, hd, hp, hl, -⟩ := hc.view _ _ ho
  rw [hn.2] at he hd hl
  rw [hl, decodeEndpoint_endpoint] at hs
  cases hs
  exact shared_withTransferLock (.published he (congrArg _ hd) hp)
    (Io.shared_liftM (h.attachAnchor ho hn.2))

omit [Crates] in
theorem shared_release {expected : EntityState}
    (h : st.Unseen expected.data.entity ctx.operationId st') :
    Io.Shared (st.Private root expected.data.entity N) (· = layoutsDir root) N
      (Alters expected.data.entity ctx.operationId N st st') (releaseEffect root ctx expected st)
      (releaseEffect root ctx expected st') := by
  unfold releaseEffect
  rw [h.releasable]
  refine (Io.shared_liftM (Agree.self _)).run_bind ?_
  rintro l _ ⟨rfl, hl⟩
  obtain ⟨e, he, rfl, -, -, -, hp⟩ := State.releasable_eq_ok.mp hl
  obtain ⟨owns, he, -⟩ := State.entity_eq_ok.mp he
  exact shared_withTransferLock (.published he rfl hp) (Io.shared_liftM (h.detach owns))

theorem shared_prepareRecall {expected : EntityState} {anchor : ArchiveReceipt}
    (h : st.Unseen expected.data.entity ctx.operationId st') :
    Io.Shared (st.Private root expected.data.entity N) (· = layoutsDir root) N
      (Alters expected.data.entity ctx.operationId N st st')
      (prepareRecallEffect root ctx expected anchor st)
      (prepareRecallEffect root ctx expected anchor st') := by
  unfold prepareRecallEffect
  rw [h.recallable]
  refine (Io.shared_liftM (Agree.self _)).run_bind fun _ _ _ => ?_
  have made : Io.Shared (st.Private root expected.data.entity N) (· = layoutsDir root) N
      (fun u v => u = v ∧ N u) (newLayout (layoutsDir root) : Io κ String)
        (newLayout (layoutsDir root)) :=
    shared_newLayout rfl fun _ hu => .new hu
  refine made.run_bind ?_
  rintro u _ ⟨rfl, hu⟩
  refine .ret ⟨rfl, ⟨none, none, some (u, some ⟨ctx, ⟨expected.data, u, anchor.key,
    endpoint (layoutDir root u)⟩, anchor⟩), none, none, []⟩,
    ⟨?_, .keep, .store hu rfl, ?_, ?_⟩, rfl, ?_, ?_⟩
  · exact fun id hid => (Table.not_edits hid).elim
  · exact fun k hk => (Table.not_edits hk).elim
  · exact fun i hi => (Table.not_edits hi).elim
  · simp only [Patch.apply, Table.edit, List.append_nil]
  · simp only [Patch.apply, Table.edit, List.append_nil]

theorem shared_commitRecall {target : RecallTarget} {evidence : TransferEvidence}
    (h : st.Unseen target.data.entity ctx.operationId st')
    (hr : st'.recalls.lookup target.layoutId = st.recalls.lookup target.layoutId) :
    Io.Shared (st.Private root target.data.entity N) (· = layoutsDir root) N
      (Alters target.data.entity ctx.operationId N st st')
      (commitRecallEffect root ctx target evidence st)
      (commitRecallEffect root ctx target evidence st') := by
  unfold commitRecallEffect
  rw [hr]
  refine (Io.shared_liftM (Agree.self _)).run_bind ?_
  rintro owner _ ⟨rfl, ho⟩
  rw [HsmResult.okOr_eq_ok] at ho
  refine Prog.Twin.run_guard Iff.rfl fun hn => ?_
  simp only [not_or, not_not, ne_eq] at hn
  refine (Io.shared_liftM (Agree.self _)).run_bind ?_
  rintro destination _ ⟨rfl, -⟩
  refine Prog.Twin.run_guard Iff.rfl fun _ => ?_
  have priv : st.Private root target.data.entity N (layoutDir root target.layoutId) :=
    .recalled ho (hn.2 ▸ rfl)
  refine shared_withTransferLock priv ?_
  refine (Io.shared (inside_digestFile priv)).run_bind ?_
  rintro ⟨length, digest⟩ _ rfl
  dsimp only
  rw [h.sealable]
  refine (Io.shared_liftM (Agree.self _)).run_bind ?_
  rintro ⟨⟩ _ ⟨-, hs⟩
  obtain ⟨e, he, -⟩ := State.sealable_eq_ok.mp hs
  refine (shared_syncFile priv).run_bind fun _ _ _ => ?_
  refine (shared_syncDir (.inl priv)).run_bind fun _ _ _ => ?_
  refine (Io.shared (inside_writeJson priv)).run_bind fun _ _ _ => ?_
  exact Io.shared_liftM (h.publish (State.entity_eq_ok.mp he).1 ho hn.2)

end Effects

end

end HsmRs
