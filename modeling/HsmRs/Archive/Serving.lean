import HsmRs.Archive.Opening
import HsmRs.Local.Thriving

/-! # The local archive when no operation fails

An archive that serves has its directories, and no data session is active. On a machine
that fails no operation an attempt under an unused name goes through to a receipt, and
what a receipt attests can be inspected and opened.
-/

namespace HsmRs.LocalArchive

variable {κ : Type} [KeyHash κ] {self : LocalArchive} {archive : ArchiveKey}
  {s s' : Disk (FileName κ) (Content κ)} {receipt : ArchiveReceipt} {b : Bytes}

omit [KeyHash κ] in
structure Serving (store : LocalArchive) (s : Disk (FileName κ) (Content κ)) : Prop where
  objects : s.dir (objectsDir store.root) = true
  attempts : s.dir (attemptsDir store.root) = true
  idle : ∀ d, s.locked d .transferLock = false

omit [KeyHash κ] in
theorem Serving.frame {K : Dir → FileName κ → Prop} (h : self.Serving s) (hf : Frame K s s')
    (hk : ∀ d, s.dir d = true → self.root <:+ d → K d .backendId)
    (idle : ∀ d, s'.locked d .transferLock = false) : self.Serving s' :=
  ⟨hf.dir _ _ (hk _ h.objects (List.suffix_cons _ _)) h.objects,
    hf.dir _ _ (hk _ h.attempts (List.suffix_cons _ _)) h.attempts, idle⟩

omit [KeyHash κ] in
theorem Identifies.frame {K : Dir → FileName κ → Prop} {root : Dir} {id : String}
    (h : Identifies root id s) (hf : Frame K s s') (hk : K root .backendId) :
    Identifies root id s' := by
  refine ⟨h.1, fun f hf' => ?_⟩
  have hn := hf.now root .backendId hk
  rw [hf'] at hn
  obtain ⟨f', hf', hc, -⟩ := hn.some_right
  exact hc ▸ h.2 f' hf'

omit [KeyHash κ] in
theorem Identifies.of_content {root : Dir} {id : String} (named : id ≠ "")
    (h : ∃ x, s.lookup root .backendId = some ⟨.text id, x⟩) : Identifies root id s := by
  obtain ⟨x, hx⟩ := h
  refine ⟨named, fun f hf => ?_⟩
  rw [hx] at hf
  cases hf
  rfl

variable [Crates]

structure Archived (store : LocalArchive) (receipt : ArchiveReceipt) (b : Bytes) (payload : Dir)
    (s : Disk (FileName κ) (Content κ)) : Prop where
  accepts : store.Accepts receipt.key
  object : ∃ x, s.lookup (objectsDir store.root) (receiptName receipt.key) =
    some ⟨.committed ⟨receipt, endpoint payload⟩, x⟩
  below : store.root <:+ payload
  holds : s.Holds payload b
  length : receipt.length = b.length
  digest : receipt.digest = digestOf b

namespace Archived

variable {payload : Dir}

theorem frame {K : Dir → FileName κ → Prop} (h : self.Archived receipt b payload s)
    (hf : Frame K s s') (object : K (objectsDir self.root) (receiptName receipt.key))
    (data : K payload .data) : self.Archived receipt b payload s' := by
  refine { h with object := ?_, holds := h.holds.frame hf data }
  obtain ⟨x, hx⟩ := h.object
  have := hf.now _ _ object
  rw [hx] at this
  obtain ⟨⟨c, y⟩, hg, hc, -⟩ := this.some_left
  exact ⟨y, by rw [hg]; simpa using hc⟩

theorem backed (h : self.Archived receipt b payload s) :
    (⟨receipt, endpoint payload⟩ : Committed).Backed payload b s :=
  ⟨⟨_, decodeEndpoint_endpoint _, rfl⟩, h.holds, h.length, h.digest⟩

theorem readable (h : self.Archived receipt b payload s) : self.Readable receipt.key s := by
  obtain ⟨x, hx⟩ := h.object
  refine ⟨h.accepts, fun f hf => ?_⟩
  rw [hx] at hf
  cases hf
  exact ⟨_, payload, b, rfl, rfl, h.backed⟩

end Archived

variable [DecidableEq κ] {π : Policy (FileName κ) (Content κ)} {payload : Dir}
  {ctx : OperationContext} {view : DataView} {target : ArchiveTarget}

/-! ## Receipts have an ID -/

omit [Crates] [DecidableEq κ] in
def Signed (store : LocalArchive) (archive : ArchiveKey)
    (s : Disk (FileName κ) (Content κ)) : Prop :=
  ∀ c x, s.lookup (objectsDir store.root) (receiptName archive) = some ⟨.committed c, x⟩ →
    c.receipt.receiptId ≠ ""

omit [Crates] [DecidableEq κ] in
theorem Signed.frame {K : Dir → FileName κ → Prop} (h : self.Signed archive s) (hf : Frame K s s')
    (hk : K (objectsDir self.root) (receiptName archive)) : self.Signed archive s' := by
  intro c x hx
  have hn := hf.now _ _ hk
  rw [hx] at hn
  obtain ⟨⟨c', y⟩, hy, hc, -⟩ := hn.some_right
  cases hc
  exact h c y hy

omit [Crates] [DecidableEq κ] in
theorem signed_of_absent (h : s.lookup (objectsDir self.root) (receiptName archive) = none) :
    self.Signed archive s := fun c x hx => by
  rw [h] at hx
  cases hx

section

variable (ids : ∀ s u, π.uuid s u → u ≠ "")
include ids

theorem signed_sealAndPublish {evidence : TransferEvidence} (h : self.Signed target.key s) :
    (self.sealAndPublish target view evidence payload : Io κ _).run.wp (fsMachine π)
      (self.Signed target.key) (fun _ _ => True) s := by
  let K : Dir → FileName κ → Prop := fun d n =>
    d = objectsDir self.root ∧ n = receiptName target.key
  have named : ∀ d n, K d n → Named d n := by
    rintro _ _ ⟨rfl, rfl⟩
    exact fun h => h
  have kept : ∀ {s₁ s₂}, self.Signed target.key s₁ → Frame K s₁ s₂ → self.Signed target.key s₂ :=
    fun hs hf => hs.frame hf ⟨rfl, rfl⟩
  apply Prog.wp_run_bind_of
  refine Prog.wp_frame (spares_digestFile (K := K)) (fun s' hf => kept h hf) fun r s₁ _ f₁ => ?_
  have h₁ := kept h f₁
  rcases r with e | ⟨length, digest⟩
  · trivial
  refine Prog.wp_guard h₁ (fun _ => trivial) fun _ => ?_
  apply Prog.wp_run_bind_of
  refine Prog.wp_frame (K := K) (within_io.mpr trivial) (fun s' hf => kept h₁ hf)
    fun r s₂ _ f₂ => ?_
  have h₂ := kept h₁ f₂
  rcases r with e | ⟨⟩
  · trivial
  apply Prog.wp_run_bind_of
  refine Prog.wp_frame (K := K) (within_io.mpr trivial) (fun s' hf => kept h₂ hf)
    fun r s₃ _ f₃ => ?_
  have h₃ := kept h₂ f₃
  rcases r with e | ⟨⟩
  · trivial
  apply Prog.wp_run_bind_of
  refine Prog.wp_frame (K := K) (spares_writeJson named fun hk => by cases hk.2)
    (fun s' hf => kept h₃ hf) fun r s₄ _ f₄ => ?_
  have h₄ := kept h₃ f₄
  rcases r with e | ⟨⟩
  · trivial
  apply Prog.wp_run_bind_of
  refine wp_ask h₄ (fun s' ht => kept h₄ (ht.frame trivial)) fun u s₅ hu => ?_
  have h₅ := kept h₄ (hu.frame trivial)
  refine Prog.wp_check h₅ (fun _ _ => trivial) fun n hn => ?_
  apply Prog.wp_run_bind_of
  have published : ∀ s', Frame Named s₅ s' ∨ Linked (objectsDir self.root) n
        (.committed ⟨⟨target.key, view.data, length, digest, u, "local-fsync-v1"⟩,
          target.destination⟩)
        s₅ s' → self.Signed target.key s' := by
    rintro s' (hf | hl)
    · exact h₅.frame hf fun h => h
    · obtain ⟨-, rfl⟩ := receiptPath_eq_ok.mp hn
      intro c x hx
      rw [hl.now] at hx
      cases hx
      exact ids _ _ hu.uuid.1
  refine wp_publishReceipt ?_ published (fun s' hl _ _ => ?_) fun e s' _ hl _ => ?_
  · obtain ⟨-, rfl⟩ := receiptPath_eq_ok.mp hn
    exact fun h => h
  · exact ⟨published s' (.inr hl), trivial⟩
  · trivial

omit ids [DecidableEq κ] in
theorem spares_committed {K : Dir → FileName κ → Prop} :
    (self.committed archive : Io κ _).run.Within (FsOp.Spares K) :=
  within_committed (fun _ _ => trivial) (fun _ _ => trivial) fun _ => trivial

theorem signed_commit {evidence : TransferEvidence} (h : self.Signed target.key s) :
    (self.commit ctx target view evidence : Io κ _).run.wp (fsMachine π) (self.Signed target.key)
      (fun _ _ => True) s := by
  have kept : ∀ {s₁ s₂ : Disk (FileName κ) (Content κ)}, self.Signed target.key s₁ →
      Frame Named s₁ s₂ → self.Signed target.key s₂ := fun hs hf => hs.frame hf fun h => h
  refine Prog.wp_check h (fun _ _ => trivial) fun _ _ => ?_
  apply Prog.wp_run_bind_of
  refine wp_readFile h (fun f _ => ?_) fun _ _ _ => trivial
  apply Prog.wp_run_bind_of
  refine wp_decode h (fun p _ => ?_) fun _ => trivial
  refine Prog.wp_guard h (fun _ => trivial) fun _ => ?_
  apply Prog.wp_run_bind_of
  refine Prog.wp_frame spares_committed (fun s' hf => kept h hf) fun r s₁ _ f₁ => ?_
  have h₁ := kept h f₁
  rcases r with e | (_ | c)
  · trivial
  · refine Prog.wp_check h₁ (fun _ _ => trivial) fun e _ => ?_
    refine wp_withTransferLock h₁ (fun s' b hs => kept hs frame_lock) (fun _ _ _ => trivial)
      (fun _ _ _ _ => trivial) fun _ _ => ?_
    exact Prog.wp_mono (signed_sealAndPublish ids (kept h₁ frame_lock)) (fun _ h => h)
      fun _ _ _ _ => trivial
  · dsimp only
    split
    · exact ⟨h₁, trivial⟩
    · exact ⟨h₁, trivial⟩

end

section

variable {C : Disk (FileName κ) (Content κ) → Prop} (smooth : π.Smooth)
include smooth

theorem inspect_absent (cut : ∀ s', Frame Named s s' → C s')
    (accepts : self.Accepts archive)
    (absent : s.lookup (objectsDir self.root) (receiptName archive) = none) :
    Endures (fsMachine π) C (self.inspect archive) s fun r s' => r = .absent ∧ s' = s := by
  refine wp_inspect cut (fun _ => ⟨_, rfl, rfl, rfl⟩) (fun c p b' s' h => ?_)
    fun e s' _ hn => ?_
  · obtain ⟨x, hx⟩ := h.object
    rw [absent] at hx
    cases hx
  · refine (hn ⟨smooth, accepts, fun f hf => ?_⟩).elim
    rw [absent] at hf
    cases hf

theorem inspect_endures (cut : ∀ s', Frame Named s s' → C s')
    (h : self.Archived receipt b payload s) :
    Endures (fsMachine π) C (self.inspect receipt.key) s fun r s' =>
      r = .committed receipt ∧ Frame Named s s' ∧ s'.locked = s.locked := by
  obtain ⟨x, hx⟩ := h.object
  refine wp_inspect cut (fun hn => ?_) (fun c p b' s' hf => ?_) fun e s' _ hn => ?_
  · rw [hx] at hn
    cases hn
  · obtain ⟨y, hy⟩ := hf.object
    rw [hx] at hy
    cases hy
    exact ⟨_, rfl, rfl, hf.frame, hf.locked⟩
  · exact (hn ⟨smooth, h.readable⟩).elim

theorem openReceipt_endures (cut : ∀ s', Frame Named s s' → C s')
    (h : self.Archived receipt b payload s) :
    Endures (fsMachine π) C (self.openReceipt receipt) s fun r s' =>
      r = endpoint payload ∧ Frame Named s s' ∧ s'.locked = s.locked := by
  obtain ⟨x, hx⟩ := h.object
  refine wp_openReceipt cut (fun c p b' s' hf _ => ?_) fun e s' _ hn => ?_
  · obtain ⟨y, hy⟩ := hf.object
    rw [hx] at hy
    cases hy
    exact ⟨_, rfl, rfl, hf.frame, hf.locked⟩
  · exact (hn ⟨smooth, h.readable, _, x, hx, rfl⟩).elim

theorem prepare_endures
    (cut : ∀ s', Frame Named s s' ∨ (∃ u, self.Attempted ctx archive view u s s') →
      C s') (h : self.Serving s) (validate : ctx.validate = .ok ())
    (accepts : self.Accepts archive)
    (absent : s.lookup (objectsDir self.root) (receiptName archive) = none)
    (new : s.lookup (attemptsDir self.root) (preparedPath ctx archive) = none) :
    Endures (fsMachine π) C (self.prepare ctx archive view) s fun r s' => ∃ u,
      r = ⟨archive, endpoint (u :: attemptsDir self.root)⟩ ∧
      self.Attempted ctx archive view u s s' ∧ s'.locked = s.locked := by
  refine wp_prepare cut (fun p x _ hp _ _ _ => ?_)
    (fun u s' _ ha _ hk => ⟨_, rfl, u, rfl, ha, hk⟩) fun e s' _ hn => ?_
  · rw [new] at hp
    cases hp
  · refine (hn ⟨smooth, validate, accepts, absent, fun f hf => ?_, h.attempts⟩).elim
    rw [new] at hf
    cases hf

theorem prepare_resumes {p : Prepared} (cut : ∀ s', Frame Named s s' → C s') (h : self.Serving s)
    (validate : ctx.validate = .ok ()) (accepts : self.Accepts archive)
    (absent : s.lookup (objectsDir self.root) (receiptName archive) = none)
    (record : ∃ x, s.lookup (attemptsDir self.root) (preparedPath ctx archive) =
      some ⟨.prepared p, x⟩)
    (owner : sameAttempt p.context ctx) (key : p.key = archive) (views : p.view = view) :
    Endures (fsMachine π) C (self.prepare ctx archive view) s fun r s' =>
      r = p.target ∧ s' = s := by
  obtain ⟨x, hx⟩ := record
  refine wp_prepare ?_ (fun q y _ hq _ _ _ => ?_) (fun u s' _ ha _ _ => ?_) fun e s' _ hn => ?_
  · rintro s' (hf | ⟨u, ha⟩)
    · exact cut s' hf
    · rw [ha.absent] at hx
      cases hx
  · rw [hx] at hq
    cases hq
    exact ⟨_, rfl, rfl, rfl⟩
  · rw [ha.absent] at hx
    cases hx
  · refine (hn ⟨smooth, validate, accepts, absent, fun f hf => ?_, h.attempts⟩).elim
    rw [hx] at hf
    cases hf
    exact ⟨p, rfl, owner, key, views⟩

theorem commit_endures (ids : ∀ s u, π.uuid s u → u ≠ "")
    (cut : ∀ s', self.Commits ctx target view s s' → self.Signed target.key s' → C s')
    (h : self.Serving s) (validate : ctx.validate = .ok ())
    (accepts : self.Accepts target.key)
    (absent : s.lookup (objectsDir self.root) (receiptName target.key) = none)
    (owned : self.Owned ctx target view s) (destination : target.destination = endpoint payload)
    (below : self.root <:+ payload) (holds : s.Holds payload b) (bytes : Matches view b) :
    Endures (fsMachine π) C (self.commit ctx target view ⟨view.length, view.digest⟩) s fun r s' =>
      ∃ t u, π.uuid t u ∧ r = attest view target.key u ∧ self.Archived r b payload s' ∧
        Frame (self.Untouched target.key payload) s s' ∧ s'.locked = s.locked := by
  have decodes : decodeEndpoint target.destination = .ok ⟨true, payload, "data"⟩ :=
    destination ▸ decodeEndpoint_endpoint payload
  refine Prog.wp_mono (Prog.wp_and (wp_commit (C := self.Commits ctx target view s)
    (fun _ _ _ hc => hc.lock) (fun _ hc => hc) (fun c p b' s' _ hf _ _ _ => ?_) ?_ ?_)
    (signed_commit ids (signed_of_absent absent))) (fun s' hc => cut s' hc.1 hc.2)
      fun _ _ _ hq => hq.1
  · obtain ⟨x, hx⟩ := hf.object
    rw [absent] at hx
    cases hx
  · rintro p b' u t s' - ⟨e, he, rfl⟩ hu published - hk
    rw [decodes] at he
    cases he
    refine ⟨_, rfl, t, u, hu, rfl,
      ⟨accepts, ⟨true, ?_⟩, below, ⟨true, ?_⟩, bytes.length, bytes.digest⟩,
      published.others, hk⟩
    · rw [← destination]
      exact published.object
    · obtain rfl := holds.unique published.holds
      exact published.data.1
  · intro e s' _ hn
    refine (hn ⟨smooth, validate, owned, ⟨accepts, fun f hf => ?_⟩, fun c x hx => ?_,
      fun _ => ⟨h.objects, rfl, _, b, decodes, holds, bytes, h.idle _⟩⟩).elim
    · rw [absent] at hf
      cases hf
    · rw [absent] at hx
      cases hx

omit [KeyHash κ] [Crates] in
theorem open_succeeds {root : Dir} {id : String} (tree : s.Tree) (top : s.dir [] = true)
    (free : s.locked root .ownerLock = false) (identifies : Identifies root id s)
    (idle : ∀ d, s.locked d .transferLock = false) :
    Succeeds (fsMachine π) (LocalArchive.open root id) s fun a s' => a = ⟨root, id⟩ ∧ a.Serving s' ∧
      (∃ x, s'.lookup root .backendId = some ⟨.text id, x⟩) ∧
      Frame (NamedBut root .backendId) s s' ∧
      s'.locked = (s.setLock root .ownerLock true).locked := by
  refine wp_open tree (fun _ _ => trivial) (fun _ _ => trivial) (fun s' opened _ _ hk => ?_)
    fun e s' _ hn => (hn ⟨smooth, top, free, identifies⟩).elim
  refine ⟨_, rfl, rfl, ⟨opened.objects.1, opened.attempts.1, fun d => ?_⟩, opened.identity,
    opened.opening.others, hk⟩
  rw [hk]
  simpa [Disk.setLock] using idle d

end

end HsmRs.LocalArchive
