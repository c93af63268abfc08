import HsmRs.Local.Archive
import HsmRs.Local.Helpers

/-! # Calls of the local archive

What the calls of the archive do to the disk. A call leaves all named files alone,
or it adds the record of one attempt, or the seal of one payload and then one
object of the catalog.
-/

namespace HsmRs

variable {κ α : Type} {s s' s'' : Disk (FileName κ) (Content κ)} {d : Dir}

section Decode

variable [DecidableEq κ] {π : Policy (FileName κ) (Content κ)}
  {C : Disk (FileName κ) (Content κ) → Prop}

theorem wp_decode {shape : Content κ → Option α} {c : Content κ}
    {Q : HsmResult α → Disk (FileName κ) (Content κ) → Prop} (now : C s)
    (ok : ∀ a, shape c = some a → Q (.ok a) s)
    (error : shape c = none → Q (.error (.integrity "unexpected JSON value")) s) :
    (decode shape c).run.wp (fsMachine π) C Q s := by
  unfold decode
  cases h : shape c with
  | none => exact ⟨now, error h⟩
  | some a => exact ⟨now, ok a h⟩

end Decode

/-- The bytes `b` in `payload` are what the receipt attests. -/
structure Committed.Backed [Crates] (c : Committed) (payload : Dir) (b : Bytes)
    (s : Disk (FileName κ) (Content κ)) : Prop where
  decodes : ∃ e, decodeEndpoint c.payload = .ok e ∧ e.root = payload
  holds : s.Holds payload b
  length : c.receipt.length = b.length
  digest : c.receipt.digest = digestOf b

namespace LocalArchive

variable [KeyHash κ] {self : LocalArchive} {archive : ArchiveKey}

def receiptName (archive : ArchiveKey) : FileName κ := .hashed (key (.archive archive))

def Accepts (self : LocalArchive) (archive : ArchiveKey) : Prop :=
  archive.backend = self.id ∧ archive.object ≠ ""

theorem receiptPath_eq_ok {n : FileName κ} :
    self.receiptPath archive = .ok n ↔ self.Accepts archive ∧ n = receiptName archive := by
  unfold receiptPath Accepts receiptName
  grind

variable [Crates]

/-- The object of the key, if there is one, can be read back. -/
def Readable (self : LocalArchive) (archive : ArchiveKey) (s : Disk (FileName κ) (Content κ)) :
    Prop :=
  self.Accepts archive ∧ ∀ f, s.lookup (objectsDir self.root) (receiptName archive) = some f →
    ∃ c payload b, f.content = .committed c ∧ c.receipt.key = archive ∧ c.Backed payload b s

/-- The object `c` of the key has been read back and its publication made durable. -/
structure Found (store : LocalArchive) (archive : ArchiveKey) (c : Committed) (payload : Dir)
    (b : Bytes) (s s' : Disk (FileName κ) (Content κ)) : Prop where
  accepts : store.Accepts archive
  object : ∃ x, s.lookup (objectsDir store.root) (receiptName archive) = some ⟨.committed c, x⟩
  key : c.receipt.key = archive
  backed : c.Backed payload b s
  frame : Frame Named s s'
  locked : s'.locked = s.locked
  data : s'.Safe payload .data (.bytes b)
  settled : s'.Settled payload
  catalog : s'.Settled (objectsDir store.root)

variable [DecidableEq κ] {π : Policy (FileName κ) (Content κ)}
  {C : Disk (FileName κ) (Content κ) → Prop}

omit [KeyHash κ] [Crates] in
theorem wp_readIfPresent {n : FileName κ}
    {Q : HsmResult (Option (Content κ)) → Disk (FileName κ) (Content κ) → Prop} (now : C s)
    (absent : s.lookup d n = none → Q (.ok none) s)
    (found : ∀ f, s.lookup d n = some f → Q (.ok (some f.content)) s)
    (error : ∀ e, ¬ π.Smooth → Q (.error e) s) :
    (readIfPresent d n).run.wp (fsMachine π) C Q s := by
  refine ⟨now, fun s' ht => ?_, ?_⟩
  · cases ht <;> exact now
  rintro (e | c) s' h
  · obtain rfl := h.read_state
    by_cases he : e.kind = .notFound
    · simp only [he, if_true]
      exact ⟨now, absent (h.read_notFound he)⟩
    · simp only [he, if_false]
      refine ⟨now, error _ ?_⟩
      rcases h.responds_or_fails (by simp) (.inl rfl) with ⟨u, -, hx, -⟩ | ⟨hf, -⟩
      · cases hn : s'.lookup d n with
        | none =>
          simp only [Disk.respond, hn, Except.error.injEq] at hx
          exact (he (hx ▸ rfl)).elim
        | some f => simp [Disk.respond, hn] at hx
      · exact π.not_smooth hf
  · obtain ⟨f, hl, rfl, rfl⟩ := h.read_ok
    exact ⟨now, found f hl⟩

theorem wp_committed {Q : HsmResult (Option Committed) → Disk (FileName κ) (Content κ) → Prop}
    (cut : ∀ s', Frame Named s s' → C s')
    (absent : s.lookup (objectsDir self.root) (receiptName archive) = none → Q (.ok none) s)
    (found : ∀ c payload b s', self.Found archive c payload b s s' → Q (.ok (some c)) s')
    (error : ∀ e s', Frame Named s s' → ¬ (π.Smooth ∧ self.Readable archive s) →
      Q (.error e) s') :
    (self.committed archive : Io κ _).run.wp (fsMachine π) C Q s := by
  have now : C s := cut s (.refl s)
  apply Prog.wp_run_bind_of
  cases hp : (self.receiptPath archive : HsmResult (FileName κ)) with
  | error e =>
    refine ⟨now, error e s (.refl s) fun h => ?_⟩
    rw [receiptPath_eq_ok.mpr ⟨h.2.1, rfl⟩] at hp
    cases hp
  | ok n =>
    obtain ⟨ha, rfl⟩ := receiptPath_eq_ok.mp hp
    refine ⟨now, ?_⟩
    apply Prog.wp_run_bind_of
    refine wp_readIfPresent now (fun hl => ⟨now, absent hl⟩) ?_
      fun e hf => error e s (.refl s) fun h => hf h.1
    rintro ⟨content, x⟩ hl
    have broken : ∀ e, (∀ c payload b, content = .committed c → c.receipt.key = archive →
        ¬ c.Backed payload b s) → Q (.error e) s := by
      refine fun e h => error e s (.refl s) fun hr => ?_
      obtain ⟨c, payload, b, hc, hk, hb⟩ := hr.2.2 _ hl
      exact h c payload b hc hk hb
    apply Prog.wp_run_bind_of
    refine wp_decode now ?_ fun hn => broken _ ?_
    case refine_2 =>
      rintro c - - rfl - -
      cases hn
    intro c hc
    obtain rfl : content = .committed c := by
      cases content with
      | committed c' => exact congrArg _ (Option.some.inj hc)
      | _ => cases hc
    refine Prog.wp_guard now (fun hn => broken _ fun c' _ _ he hk _ => ?_) fun hk => ?_
    · cases he
      exact hn hk
    rw [not_not] at hk
    apply Prog.wp_run_bind_of
    cases he : decodeEndpoint c.payload with
    | error e =>
      refine ⟨now, broken e fun c' payload b hc' _ hb => ?_⟩
      cases hc'
      obtain ⟨e', he', -⟩ := hb.decodes
      rw [he] at he'
      cases he'
    | ok e =>
      refine ⟨now, ?_⟩
      apply Prog.wp_run_bind_of
      refine wp_digestFile now ?_ fun e' _ hr => ?_
      case refine_2 =>
        rcases hr with hf | hn
        · exact error e' s (.refl s) fun h => hf h.1
        · refine broken e' fun c' payload b hc' _ hb => ?_
          cases hc'
          obtain ⟨e', he', rfl⟩ := hb.decodes
          rw [he] at he'
          cases he'
          exact hn b hb.holds
      intro b hb
      refine Prog.wp_guard now (fun hm => broken _ fun c' payload b' hc' _ hb' => ?_) fun hm => ?_
      · cases hc'
        obtain ⟨e', he', rfl⟩ := hb'.decodes
        rw [he] at he'
        cases he'
        obtain rfl := hb.unique hb'.holds
        exact hm.elim (fun h => h hb'.length) fun h => h hb'.digest
      rw [not_or, not_not, not_not] at hm
      have backed : c.Backed e.root b s := ⟨⟨e, he, rfl⟩, hb, hm.1, hm.2⟩
      obtain ⟨y, hy⟩ := hb
      apply Prog.wp_run_bind_of
      refine wp_syncFile cut ?_ ?_
      case refine_2 =>
        intro e' s' _ hf hr
        refine error e' s' hf fun h => ?_
        rcases hr with hf | hn
        · exact hf h.1
        · rw [hy] at hn
          cases hn
      intro f hf
      rw [hy] at hf
      cases hf
      have hd : s.dir e.root = true := backed.holds.dir
      generalize h₁ : s.put e.root .data (some ⟨.bytes b, true⟩) = s₁
      have f₁ : Frame Named s s₁ := h₁ ▸ Disk.frame_sync hy
      have l₁ : s₁.lookup e.root .data = some ⟨.bytes b, true⟩ := by
        rw [← h₁]
        simp [hd]
      have k₁ : s₁.locked = s.locked := h₁ ▸ rfl
      have hd₁ : s₁.dir e.root = true := by rw [← h₁]; exact hd
      have ho₁ : s₁.dir (objectsDir self.root) = true := by
        rw [← h₁]
        by_contra hn
        have hn : s.dir (objectsDir self.root) = false := by simpa using hn
        simp [Disk.lookup, hn] at hl
      apply Prog.wp_run_bind_of
      refine wp_syncDir (fun s' h => cut s' (f₁.trans h)) (fun _ => ?_) ?_
      case refine_2 =>
        intro e' s' _ hf hr
        refine error e' s' (f₁.trans hf) fun h => ?_
        rcases hr with hf | hn
        · exact hf h.1
        · rw [hd₁] at hn
          cases hn
      have f₂ : Frame Named s (s₁.flush e.root) := f₁.trans (Disk.flushed_flush _ _).frame
      apply Prog.wp_run_bind_of
      refine wp_syncDir (fun s' h => cut s' (f₂.trans h)) (fun _ => ?_) ?_
      case refine_2 =>
        intro e' s' _ hf hr
        refine error e' s' (f₂.trans hf) fun h => ?_
        rcases hr with hf | hn
        · exact hf h.1
        · have : (s₁.flush e.root).dir (objectsDir self.root) = true := ho₁
          rw [this] at hn
          cases hn
      have f₃ := f₂.trans (Disk.flushed_flush (s₁.flush e.root) (objectsDir self.root)).frame
      have settled := (settled_flush s₁ e.root).flush (objectsDir self.root)
      exact ⟨cut _ f₃, found c e.root b _ ⟨ha, ⟨x, hl⟩, hk, backed, f₃, k₁, settled.safe l₁,
        settled, settled_flush _ _⟩⟩

theorem wp_inspect {Q : HsmResult ArchiveStatus → Disk (FileName κ) (Content κ) → Prop}
    (cut : ∀ s', Frame Named s s' → C s')
    (absent : s.lookup (objectsDir self.root) (receiptName archive) = none → Q (.ok .absent) s)
    (found : ∀ c payload b s', self.Found archive c payload b s s' →
      Q (.ok (.committed c.receipt)) s')
    (error : ∀ e s', Frame Named s s' → ¬ (π.Smooth ∧ self.Readable archive s) →
      Q (.error e) s') :
    (self.inspect archive : Io κ _).run.wp (fsMachine π) C Q s := by
  apply Prog.wp_run_bind_of
  refine wp_committed cut (fun hl => ?_) (fun c payload b s' h => ?_) error
  · exact ⟨cut s (.refl s), absent hl⟩
  · exact ⟨cut s' h.frame, found c payload b s' h⟩

theorem wp_openReceipt {receipt : ArchiveReceipt}
    {Q : HsmResult DataEndpoint → Disk (FileName κ) (Content κ) → Prop}
    (cut : ∀ s', Frame Named s s' → C s')
    (found : ∀ c payload b s', self.Found receipt.key c payload b s s' → c.receipt = receipt →
      Q (.ok c.payload) s')
    (error : ∀ e s', Frame Named s s' → ¬ (π.Smooth ∧ self.Readable receipt.key s ∧
      ∃ c x, s.lookup (objectsDir self.root) (receiptName receipt.key) = some ⟨.committed c, x⟩ ∧
        c.receipt = receipt) → Q (.error e) s') :
    (self.openReceipt receipt : Io κ _).run.wp (fsMachine π) C Q s := by
  apply Prog.wp_run_bind_of
  refine wp_committed cut (fun hl => ?_) (fun c payload b s' h => ?_)
    fun e s' hf hr => error e s' hf fun h => hr ⟨h.1, h.2.1⟩
  · refine ⟨cut s (.refl s), error _ s (.refl s) ?_⟩
    rintro ⟨-, -, c, x, hc, -⟩
    rw [hl] at hc
    cases hc
  · refine Prog.wp_guard (cut s' h.frame) (fun hn => error _ s' h.frame ?_) fun hn => ?_
    · rintro ⟨-, -, c', x, hc, he⟩
      obtain ⟨y, hy⟩ := h.object
      rw [hy] at hc
      cases hc
      exact hn he
    · exact ⟨cut s' h.frame, found c payload b s' h (by simpa using hn)⟩

/-! ## Attempts -/

/-- An attempt has been recorded, with the private directory `u` for its payload. -/
structure Attempted (store : LocalArchive) (ctx : OperationContext) (archive : ArchiveKey)
    (view : DataView) (u : String) (s s' : Disk (FileName κ) (Content κ)) : Prop where
  absent : s.lookup (attemptsDir store.root) (preparedPath ctx archive) = none
  unmade : s.dir (u :: attemptsDir store.root) = false
  dir : s'.dir (u :: attemptsDir store.root) = true
  safe : s'.safeDir (u :: attemptsDir store.root) = true
  empty : ∀ n, ¬ n.IsTemp → s'.lookup (u :: attemptsDir store.root) n = none
  placed : Placed (attemptsDir store.root) (preparedPath ctx archive)
    (.prepared ⟨ctx, archive, view, ⟨archive, endpoint (u :: attemptsDir store.root)⟩⟩) s s'

structure Preparable (store : LocalArchive) (ctx : OperationContext) (archive : ArchiveKey)
    (view : DataView) (s : Disk (FileName κ) (Content κ)) : Prop where
  validate : ctx.validate = .ok ()
  accepts : store.Accepts archive
  absent : s.lookup (objectsDir store.root) (receiptName archive) = none
  prior : ∀ f, s.lookup (attemptsDir store.root) (preparedPath ctx archive) = some f →
    ∃ p, f.content = .prepared p ∧ sameAttempt p.context ctx ∧ p.key = archive ∧ p.view = view
  dir : s.dir (attemptsDir store.root) = true

omit [DecidableEq κ] in
theorem Preparable.readable {ctx : OperationContext} {view : DataView}
    (h : self.Preparable ctx archive view s) : self.Readable archive s :=
  ⟨h.accepts, fun f hf => by rw [h.absent] at hf; cases hf⟩

theorem wp_prepare {ctx : OperationContext} {view : DataView}
    {Q : HsmResult ArchiveTarget → Disk (FileName κ) (Content κ) → Prop}
    (cut : ∀ s', Frame Named s s' ∨ (∃ u, self.Attempted ctx archive view u s s') → C s')
    (resumed : ∀ p x, s.lookup (objectsDir self.root) (receiptName archive) = none →
      s.lookup (attemptsDir self.root) (preparedPath ctx archive) = some ⟨.prepared p, x⟩ →
      sameAttempt p.context ctx → p.key = archive → p.view = view → Q (.ok p.target) s)
    (made : ∀ u s', s.lookup (objectsDir self.root) (receiptName archive) = none →
      self.Attempted ctx archive view u s s' →
      s'.Safe (attemptsDir self.root) (preparedPath ctx archive)
        (.prepared ⟨ctx, archive, view, ⟨archive, endpoint (u :: attemptsDir self.root)⟩⟩) →
      s'.locked = s.locked → Q (.ok ⟨archive, endpoint (u :: attemptsDir self.root)⟩) s')
    (error : ∀ e s', Frame Named s s' ∨ (∃ u, self.Attempted ctx archive view u s s') →
      ¬ (π.Smooth ∧ self.Preparable ctx archive view s) → Q (.error e) s') :
    (self.prepare ctx archive view : Io κ _).run.wp (fsMachine π) C Q s := by
  have still : ∀ s', Frame Named s s' → C s' := fun s' h => cut s' (.inl h)
  have now : C s := still s (.refl s)
  apply Prog.wp_run_bind_of
  cases hv : ctx.validate with
  | error e =>
    refine ⟨now, error e s (.inl (.refl s)) fun h => ?_⟩
    rw [h.2.validate] at hv
    cases hv
  | ok =>
  refine ⟨now, ?_⟩
  apply Prog.wp_run_bind_of
  refine wp_committed still (fun ha => ?_) (fun c payload b s' h => ?_)
    fun e s' hf hr => error e s' (.inl hf) fun h => hr ⟨h.1, h.2.readable⟩
  case refine_2 =>
    refine ⟨still s' h.frame, error _ s' (.inl h.frame) fun hp => ?_⟩
    obtain ⟨x, hx⟩ := h.object
    rw [hp.2.absent] at hx
    cases hx
  refine Prog.wp_guard now (fun h => by cases h) fun _ => ?_
  apply Prog.wp_run_bind_of
  refine wp_existsFile now rfl ?_
  cases hl : s.lookup (attemptsDir self.root) (preparedPath ctx archive) with
  | some f =>
    obtain ⟨content, x⟩ := f
    have broken : ∀ e, (∀ p, content = .prepared p → sameAttempt p.context ctx → p.key = archive →
        p.view ≠ view) → Q (.error e) s := by
      refine fun e hn => error e s (.inl (.refl s)) fun h => ?_
      obtain ⟨p, hc, h₁, h₂, h₃⟩ := h.2.prior _ hl
      exact hn p hc h₁ h₂ h₃
    apply Prog.wp_run_bind_of
    refine wp_readFile now (fun f hf => ?_) fun e _ hr => error e s (.inl (.refl s)) fun h => ?_
    case refine_2 =>
      rcases hr with hf | hn
      · exact hf h.1
      · rw [hl] at hn
        cases hn
    rw [hl] at hf
    cases hf
    apply Prog.wp_run_bind_of
    refine wp_decode now (fun p hp => ?_) fun hn => broken _ ?_
    case refine_2 =>
      rintro p rfl
      cases hn
    obtain rfl : content = .prepared p := by
      cases content with
      | prepared p' => exact congrArg _ (Option.some.inj hp)
      | _ => cases hp
    refine Prog.wp_guard now (fun hn => broken _ ?_) fun hn => ?_
    · rintro p ⟨⟩ h₁ h₂ h₃
      rcases hn with hn | hn | hn
      · exact hn h₁
      · exact hn h₂
      · exact hn h₃
    · simp only [not_or, not_not] at hn
      exact ⟨now, resumed p x ha hl hn.1 hn.2.1 hn.2.2⟩
  | none =>
    apply Prog.wp_run_bind_of
    refine wp_newLayout still (fun u s₁ _ _ hm f₁ k₁ => ?_) fun e s' _ hf hr => ?_
    case refine_2 =>
      refine error e s' (.inl hf) fun h => ?_
      rcases hr with hr | hr
      · exact hr h.1
      · rw [h.2.dir] at hr
        cases hr
    have named : ¬ (preparedPath ctx archive : FileName κ).IsTemp := fun h => h
    have attempted : ∀ s', Placed (attemptsDir self.root) (preparedPath ctx archive)
        (.prepared ⟨ctx, archive, view, ⟨archive, endpoint (u :: attemptsDir self.root)⟩⟩) s₁ s' →
        self.Attempted ctx archive view u s s' := by
      intro s' hp
      have other : ∀ n : FileName κ, ¬ n.IsTemp → NamedBut (attemptsDir self.root)
          (preparedPath ctx archive) (u :: attemptsDir self.root) n := fun n hn => ⟨hn, by simp⟩
      refine ⟨hl, hm.absent, ?_, ?_, fun n hn => ?_, .after f₁ named hp⟩
      · exact hp.others.dir _ .data (other _ fun h => h) hm.dir
      · exact hp.others.safeDir _ .data (other _ fun h => h) hm.dir hm.safe
      · have := hp.others.now _ n (other n hn)
        rw [hm.empty n] at this
        exact Upgrade.none_left.mp this
    have onto : ∀ s', Frame Named s₁ s' ∨ Placed (attemptsDir self.root) (preparedPath ctx archive)
        (.prepared ⟨ctx, archive, view, ⟨archive, endpoint (u :: attemptsDir self.root)⟩⟩) s₁ s' →
        Frame Named s s' ∨ ∃ u, self.Attempted ctx archive view u s s' :=
      fun s' h => h.imp (f₁.trans ·) fun hp => ⟨u, attempted s' hp⟩
    apply Prog.wp_run_bind_of
    refine wp_writeJson named (fun s' h => cut s' (onto s' h)) (fun s' hp hs hk => ?_)
      fun e s' _ h hr => error e s' (onto s' h) fun hp => ?_
    · exact ⟨cut s' (onto s' (.inr hp)), made u s' ha (attempted s' hp) hs (hk.trans k₁)⟩
    · rcases hr with hr | hr
      · exact hr hp.1
      · rw [f₁.dir _ _ named hp.2.dir] at hr
        cases hr

/-! ## Commitment -/

def attest (view : DataView) (archive : ArchiveKey) (receiptId : String) : ArchiveReceipt :=
  ⟨archive, view.data, view.length, view.digest, receiptId, "local-fsync-v1"⟩

/-- The bytes are what the view promises. -/
structure Matches (view : DataView) (b : Bytes) : Prop where
  length : view.length = b.length
  digest : view.digest = digestOf b

/-- The payload of the view has been made safe and sealed. -/
structure Sealed (payload : Dir) (view : DataView) (b : Bytes)
    (s s' : Disk (FileName κ) (Content κ)) : Prop where
  holds : s.Holds payload b
  bytes : Matches view b
  data : s'.Safe payload .data (.bytes b)
  mark : ∃ v, Placed payload .sealed (.seal v) s s'

omit [KeyHash κ] [Crates] [DecidableEq κ] in
theorem sealed_named : ¬ (FileName.sealed : FileName κ).IsTemp := fun h => h

omit [KeyHash κ] [DecidableEq κ] in
theorem Sealed.others {payload : Dir} {view : DataView} {b : Bytes}
    (h : Sealed payload view b s s') : Frame (NamedBut payload .sealed) s s' :=
  h.mark.elim fun _ hp => hp.others

def Untouched (store : LocalArchive) (archive : ArchiveKey) (payload d : Dir) (n : FileName κ) :
    Prop :=
  NamedBut payload .sealed d n ∧ NamedBut (objectsDir store.root) (receiptName archive) d n

/-- The payload of the view has been sealed and its receipt has entered the catalog. -/
structure Published (store : LocalArchive) (target : ArchiveTarget) (view : DataView)
    (payload : Dir) (b : Bytes) (receiptId : String) (s s' : Disk (FileName κ) (Content κ)) :
    Prop where
  accepts : store.Accepts target.key
  holds : s.Holds payload b
  bytes : Matches view b
  absent : s.lookup (objectsDir store.root) (receiptName target.key) = none
  others : Frame (store.Untouched target.key payload) s s'
  data : s'.Safe payload .data (.bytes b)
  mark : ∃ v, s'.Safe payload .sealed (.seal v)
  object : s'.lookup (objectsDir store.root) (receiptName target.key) =
    some ⟨.committed ⟨attest view target.key receiptId, target.destination⟩, true⟩
  objectSafe : s'.safeFile (objectsDir store.root) (receiptName target.key) =
      s.safeFile (objectsDir store.root) (receiptName target.key) ∨
    s'.safeFile (objectsDir store.root) (receiptName target.key) = none ∨
    s'.safeFile (objectsDir store.root) (receiptName target.key) =
      some ⟨.committed ⟨attest view target.key receiptId, target.destination⟩, true⟩

inductive Committing (store : LocalArchive) (target : ArchiveTarget) (view : DataView)
    (payload : Dir) (s s' : Disk (FileName κ) (Content κ)) : Prop where
  | still : Frame Named s s' → Committing store target view payload s s'
  | sealed {b : Bytes} : Sealed payload view b s s' → Committing store target view payload s s'
  | published {b : Bytes} {receiptId : String} :
      Published store target view payload b receiptId s s' →
      Committing store target view payload s s'

omit [KeyHash κ] [DecidableEq κ] in
theorem Sealed.after {payload : Dir} {view : DataView} {b : Bytes} (hf : Frame Named s s')
    (h : Sealed payload view b s' s'') : Sealed payload view b s s'' :=
  ⟨h.holds.of_frame hf fun h => h, h.bytes, h.data, h.mark.imp fun _ hp =>
    .after hf sealed_named hp⟩

omit [KeyHash κ] [DecidableEq κ] in
theorem Sealed.before {payload : Dir} {view : DataView} {b : Bytes}
    (h : Sealed payload view b s s') (hf : Frame Named s' s'') : Sealed payload view b s s'' :=
  ⟨h.holds, h.bytes, h.data.frame hf fun h => h, h.mark.imp fun _ hp => hp.before sealed_named hf⟩

theorem wp_sealAndPublish {target : ArchiveTarget} {view : DataView}
    {evidence : TransferEvidence} {payload : Dir}
    {Q : HsmResult ArchiveReceipt → Disk (FileName κ) (Content κ) → Prop}
    (absent : s.lookup (objectsDir self.root) (receiptName target.key) = none)
    (cut : ∀ s', self.Committing target view payload s s' → C s')
    (ok : ∀ b u t s', π.uuid t u → self.Published target view payload b u s s' →
      s'.Safe (objectsDir self.root) (receiptName target.key)
        (.committed ⟨attest view target.key u, target.destination⟩) → s'.locked = s.locked →
      Q (.ok (attest view target.key u)) s')
    (error : ∀ e s', self.Committing target view payload s s' →
      ¬ (π.Smooth ∧ self.Accepts target.key ∧ s.dir (objectsDir self.root) = true ∧
        evidence = ⟨view.length, view.digest⟩ ∧ ∃ b, s.Holds payload b ∧ Matches view b) →
      Q (.error e) s') :
    (self.sealAndPublish target view evidence payload : Io κ _).run.wp (fsMachine π) C Q s := by
  have still : ∀ s', Frame Named s s' → C s' := fun s' h => cut s' (.still h)
  have now : C s := still s (.refl s)
  apply Prog.wp_run_bind_of
  refine wp_digestFile now (fun b hb => ?_) fun e _ hr => error e s (.still (.refl s)) fun h => ?_
  case refine_2 =>
    obtain ⟨hs, -, -, -, b, hb, -⟩ := h
    rcases hr with hr | hr
    · exact hr hs
    · exact hr b hb
  refine Prog.wp_guard now (fun hn => error _ s (.still (.refl s)) fun h => ?_) fun hn => ?_
  · obtain ⟨-, -, -, rfl, b', hb', hm⟩ := h
    obtain rfl := hb.unique hb'
    rcases hn with hn | hn | hn | hn
    · exact hn hm.length.symm
    · exact hn hm.digest.symm
    · exact hn hm.length
    · exact hn hm.digest
  simp only [not_or, not_not] at hn
  have bytes : Matches view b := ⟨hn.1.symm, hn.2.1.symm⟩
  obtain ⟨x, hx⟩ := hb
  have hd : s.dir payload = true := Disk.Holds.dir ⟨x, hx⟩
  apply Prog.wp_run_bind_of
  refine wp_syncFile still (fun f hf => ?_) fun e s' _ hf hr => error e s' (.still hf) fun h => ?_
  case refine_2 =>
    rcases hr with hr | hr
    · exact hr h.1
    · rw [hx] at hr
      cases hr
  rw [hx] at hf
  cases hf
  generalize h₁ : s.put payload .data (some ⟨.bytes b, true⟩) = s₁
  have f₁ : Frame Named s s₁ := h₁ ▸ Disk.frame_sync hx
  have l₁ : s₁.lookup payload .data = some ⟨.bytes b, true⟩ := by
    rw [← h₁]
    simp [hd]
  have k₁ : s₁.locked = s.locked := h₁ ▸ rfl
  apply Prog.wp_run_bind_of
  refine wp_syncDir (fun s' h => still s' (f₁.trans h)) (fun _ => ?_)
    fun e s' _ hf hr => error e s' (.still (f₁.trans hf)) fun h => ?_
  case refine_2 =>
    rcases hr with hr | hr
    · exact hr h.1
    · rw [f₁.dir payload .data (fun h => h) hd] at hr
      cases hr
  have f₂ : Frame Named s (s₁.flush payload) := f₁.trans (Disk.flushed_flush _ _).frame
  have data₂ : (s₁.flush payload).Safe payload .data (.bytes b) := (settled_flush _ _).safe l₁
  have hd₂ : (s₁.flush payload).dir payload = true := f₂.dir payload .data (fun h => h) hd
  have k₂ : (s₁.flush payload).locked = s.locked := k₁
  generalize s₁.flush payload = s₂ at f₂ data₂ hd₂ k₂
  have marked : ∀ {s'}, Placed payload .sealed (.seal (.archived target.key view.data (digestOf b)))
      s₂ s' → Sealed payload view b s s' := fun hp =>
    .after f₂ ⟨⟨true, data₂.1⟩, bytes, data₂.frame hp.others ⟨fun h => h, by simp⟩, _, hp⟩
  have onto : ∀ s', Frame Named s₂ s' ∨ Placed payload .sealed
      (.seal (.archived target.key view.data (digestOf b))) s₂ s' →
      self.Committing target view payload s s' := by
    rintro s' (hf | hp)
    · exact .still (f₂.trans hf)
    · exact .sealed (marked hp)
  apply Prog.wp_run_bind_of
  refine wp_writeJson sealed_named (fun s' h => cut s' (onto s' h)) (fun s₃ p₃ m₃ k₃ => ?_)
    fun e s' _ h hr => error e s' (onto s' h) fun hp => ?_
  case refine_2 =>
    rcases hr with hr | hr
    · exact hr hp.1
    · rw [hd₂] at hr
      cases hr
  have sealed₃ := marked p₃
  have onward : ∀ {s'}, Frame Named s₃ s' → Sealed payload view b s s' := sealed₃.before
  apply Prog.wp_run_bind_of
  refine wp_ask (cut _ (.sealed sealed₃))
    (fun s' ht => cut s' (.sealed (onward (ht.frame trivial))))
    fun u s₄ h₄ => ?_
  have f₄ : Frame Named s₃ s₄ := h₄.frame trivial
  obtain ⟨hu, rfl⟩ := h₄.uuid
  have k₄ : (s₃.issue u).locked = s.locked := k₃.trans k₂
  generalize s₃.issue u = s₄ at f₄ k₄
  have now₄ : C s₄ := cut _ (.sealed (onward f₄))
  apply Prog.wp_run_bind_of
  cases hp : (self.receiptPath target.key : HsmResult (FileName κ)) with
  | error e =>
    refine ⟨now₄, error e s₄ (.sealed (onward f₄)) fun h => ?_⟩
    rw [receiptPath_eq_ok.mpr ⟨h.2.1, rfl⟩] at hp
    cases hp
  | ok n =>
  obtain ⟨accepts, rfl⟩ := receiptPath_eq_ok.mp hp
  refine ⟨now₄, ?_⟩
  have receipt : (⟨target.key, view.data, b.length, digestOf b, u, "local-fsync-v1"⟩ :
      ArchiveReceipt) = attest view target.key u := by
    rw [attest, bytes.length, bytes.digest]
  simp only [receipt]
  have object : ¬ (receiptName target.key : FileName κ).IsTemp := fun h => h
  have other : NamedBut payload .sealed (objectsDir self.root)
    (receiptName target.key : FileName κ) :=
    ⟨object, fun h => by cases h.2⟩
  have published : ∀ {s'}, Linked (objectsDir self.root) (receiptName target.key)
      (.committed ⟨attest view target.key u, target.destination⟩) s₄ s' →
      self.Published target view payload b u s s' := fun {s'} hl => by
    have kept : ∀ n : FileName κ, ¬ n.IsTemp → n ≠ receiptName target.key →
        NamedBut (objectsDir self.root) (receiptName target.key) payload n :=
      fun n hn hne => ⟨hn, fun h => hne h.2⟩
    have whole : Frame (self.Untouched target.key payload) s s' :=
      ((onward f₄).others.mono fun _ _ h => h.1).trans (hl.others.mono fun _ _ h => h.2)
    refine ⟨accepts, sealed₃.holds, bytes, absent, whole,
      (onward f₄).data.frame hl.others (kept _ (fun h => h) (by simp [receiptName])),
      ⟨_, (m₃.frame f₄ sealed_named).frame hl.others (kept _ sealed_named (by simp [receiptName]))⟩,
        hl.now, ?_⟩
    have old := (onward f₄).others.safe _ _ other
    rw [absent, Upgrade.none_left] at old
    rcases hl.safe with he | hn | he
    · rw [he]
      exact old.imp_right .inl
    · rw [hl.absent, Upgrade.none_left] at hn
      exact .inr (.inl hn)
    · exact .inr (.inr he)
  have over₄ : ∀ s', Frame Named s₄ s' ∨ Linked (objectsDir self.root) (receiptName target.key)
      (.committed ⟨attest view target.key u, target.destination⟩) s₄ s' →
      self.Committing target view payload s s' := by
    rintro s' (hf | hl)
    · exact .sealed (onward (f₄.trans hf))
    · exact .published (published hl)
  apply Prog.wp_run_bind_of
  refine wp_publishReceipt object (fun s' h => cut s' (over₄ s' h)) (fun s₅ h₅ hs k₅ => ?_)
    fun e s' _ h hr => error e s' (over₄ s' h) fun hp => ?_
  · exact ⟨cut s₅ (.published (published h₅)), ok b u _ s₅ hu (published h₅) hs (k₅.trans k₄)⟩
  · rcases hr with hr | hr | hr
    · exact hr hp.1
    · rw [(onward f₄).others.dir _ _ other hp.2.2.1] at hr
      cases hr
    · have := (onward f₄).others.now _ _ other
      rw [absent, Upgrade.none_left] at this
      exact hr this

theorem Published.lock {target : ArchiveTarget} {view : DataView} {payload d d' : Dir} {b : Bytes}
    {u : String} {n n' : FileName κ} {x y : Bool}
    (h : self.Published target view payload b u (s.setLock d n x) s') :
    self.Published target view payload b u s (s'.setLock d' n' y) :=
  ⟨h.accepts, h.holds, h.bytes, h.absent, (frame_lock.trans h.others).trans frame_lock,
    h.data, h.mark,
    h.object, h.objectSafe⟩

theorem Committing.unlock {target : ArchiveTarget} {view : DataView} {payload d : Dir}
    {n : FileName κ} {x : Bool} (h : self.Committing target view payload (s.setLock d n x) s') :
    self.Committing target view payload s s' := by
  rcases h with hf | hs | hp
  · exact .still (frame_lock.trans hf)
  · exact .sealed (.after frame_lock hs)
  · exact .published ⟨hp.accepts, hp.holds, hp.bytes, hp.absent, frame_lock.trans hp.others,
      hp.data, hp.mark,
      hp.object, hp.objectSafe⟩

theorem Committing.lock {target : ArchiveTarget} {view : DataView} {payload d : Dir}
    {n : FileName κ} {x : Bool} (h : self.Committing target view payload s s') :
    self.Committing target view payload s (s'.setLock d n x) := by
  rcases h with hf | hs | hp
  · exact .still (hf.trans frame_lock)
  · exact .sealed (hs.before frame_lock)
  · exact .published ⟨hp.accepts, hp.holds, hp.bytes, hp.absent, hp.others.trans frame_lock,
      hp.data, hp.mark,
      hp.object, hp.objectSafe⟩

/-- The record of the attempt says that `ctx` owns the target for the view. -/
def Owned (store : LocalArchive) (ctx : OperationContext) (target : ArchiveTarget)
    (view : DataView) (s : Disk (FileName κ) (Content κ)) : Prop :=
  ∃ p x, s.lookup (attemptsDir store.root) (preparedPath ctx target.key) =
    some ⟨.prepared p, x⟩ ∧ sameAttempt p.context ctx ∧ p.target = target ∧ p.view = view

/-- What a call of `commit` can do to the disk: nothing, or a commitment of an owned target
whose key was free. -/
def Commits (store : LocalArchive) (ctx : OperationContext) (target : ArchiveTarget)
    (view : DataView) (s s' : Disk (FileName κ) (Content κ)) : Prop :=
  Frame Named s s' ∨ store.Owned ctx target view s ∧
    s.lookup (objectsDir store.root) (receiptName target.key) = none ∧
    ∃ payload, (∃ e, decodeEndpoint target.destination = .ok e ∧ e.root = payload) ∧
      store.Committing target view payload s s'

theorem Commits.lock {ctx : OperationContext} {target : ArchiveTarget} {view : DataView} {d : Dir}
    {n : FileName κ} {x : Bool} (h : self.Commits ctx target view s s') :
    self.Commits ctx target view s (s'.setLock d n x) :=
  h.imp (·.trans frame_lock) fun ⟨ho, ha, payload, hd, hc⟩ => ⟨ho, ha, payload, hd, hc.lock⟩

structure Committable (store : LocalArchive) (ctx : OperationContext) (target : ArchiveTarget)
    (view : DataView) (evidence : TransferEvidence) (s : Disk (FileName κ) (Content κ)) : Prop where
  validate : ctx.validate = .ok ()
  owned : store.Owned ctx target view s
  readable : store.Readable target.key s
  same : ∀ c x, s.lookup (objectsDir store.root) (receiptName target.key) =
    some ⟨.committed c, x⟩ → c.receipt.data = view.data ∧ c.receipt.length = view.length ∧
      c.receipt.digest = view.digest
  free : s.lookup (objectsDir store.root) (receiptName target.key) = none →
    s.dir (objectsDir store.root) = true ∧ evidence = ⟨view.length, view.digest⟩ ∧
    ∃ e b, decodeEndpoint target.destination = .ok e ∧ s.Holds e.root b ∧ Matches view b ∧
      s.locked e.root .transferLock = false

theorem wp_commit {ctx : OperationContext} {target : ArchiveTarget} {view : DataView}
    {evidence : TransferEvidence}
    {Q : HsmResult ArchiveReceipt → Disk (FileName κ) (Content κ) → Prop}
    (locks : ∀ s' d b, C s' → C (s'.setLock d .transferLock b))
    (cut : ∀ s', self.Commits ctx target view s s' → C s')
    (found : ∀ c payload b s', self.Owned ctx target view s →
      self.Found target.key c payload b s s' → c.receipt.data = view.data →
      c.receipt.length = view.length → c.receipt.digest = view.digest → Q (.ok c.receipt) s')
    (made : ∀ payload b u t s', self.Owned ctx target view s →
      (∃ e, decodeEndpoint target.destination = .ok e ∧ e.root = payload) → π.uuid t u →
      self.Published target view payload b u s s' →
      s'.Safe (objectsDir self.root) (receiptName target.key)
        (.committed ⟨attest view target.key u, target.destination⟩) → s'.locked = s.locked →
      Q (.ok (attest view target.key u)) s')
    (error : ∀ e s', self.Commits ctx target view s s' →
      ¬ (π.Smooth ∧ self.Committable ctx target view evidence s) → Q (.error e) s') :
    (self.commit ctx target view evidence : Io κ _).run.wp (fsMachine π) C Q s := by
  have still : ∀ s', Frame Named s s' → C s' := fun s' h => cut s' (.inl h)
  have now : C s := still s (.refl s)
  apply Prog.wp_run_bind_of
  cases hv : ctx.validate with
  | error e =>
    refine ⟨now, error e s (.inl (.refl s)) fun h => ?_⟩
    rw [h.2.validate] at hv
    cases hv
  | ok =>
  refine ⟨now, ?_⟩
  have broken : ∀ e, ¬ self.Owned ctx target view s → Q (.error e) s :=
    fun e hn => error e s (.inl (.refl s)) fun h => hn h.2.owned
  apply Prog.wp_run_bind_of
  refine wp_readFile now ?_ fun e _ hr => error e s (.inl (.refl s)) fun h => ?_
  case refine_2 =>
    obtain ⟨p, x, hl, -⟩ := h.2.owned
    rcases hr with hr | hr
    · exact hr h.1
    · rw [hl] at hr
      cases hr
  rintro ⟨content, x⟩ hl
  apply Prog.wp_run_bind_of
  refine wp_decode now (fun p hp => ?_) fun hn => broken _ ?_
  case refine_2 =>
    rintro ⟨p, y, hp, -⟩
    rw [hl] at hp
    cases hp
    cases hn
  obtain rfl : content = .prepared p := by
    cases content with
    | prepared p' => exact congrArg _ (Option.some.inj hp)
    | _ => cases hp
  refine Prog.wp_guard now (fun hn => broken _ ?_) fun hn => ?_
  · rintro ⟨p', y, hp', h₁, h₂, h₃⟩
    rw [hl] at hp'
    cases hp'
    rcases hn with hn | hn | hn
    · exact hn h₁
    · exact hn h₂
    · exact hn h₃
  simp only [not_or, not_not] at hn
  have owned : self.Owned ctx target view s := ⟨p, x, hl, hn.1, hn.2.1, hn.2.2⟩
  apply Prog.wp_run_bind_of
  refine wp_committed still (fun ha => ?_) (fun c payload b s' h => ?_)
    fun e s' hf hr => error e s' (.inl hf) fun h => hr ⟨h.1, h.2.readable⟩
  · apply Prog.wp_run_bind_of
    cases he : decodeEndpoint target.destination with
    | error e =>
      refine ⟨now, error e s (.inl (.refl s)) fun h => ?_⟩
      obtain ⟨-, -, e', -, he', -⟩ := h.2.free ha
      rw [he] at he'
      cases he'
    | ok e =>
      refine ⟨now, ?_⟩
      have moves : ∀ s', self.Committing target view e.root s s' →
        self.Commits ctx target view s s' :=
        fun s' h => .inr ⟨owned, ha, e.root, ⟨e, he, rfl⟩, h⟩
      refine wp_withTransferLock now (fun s' b => locks s' _ b) ?_ ?_ fun _ hl' => ?_
      · intro e' _ hr
        refine error e' s (.inl (.refl s)) fun h => ?_
        obtain ⟨-, -, e', b, he', hb, -, -⟩ := h.2.free ha
        rw [he] at he'
        cases he'
        rcases hr with hr | hr
        · exact hr h.1
        · rw [hb.dir] at hr
          cases hr
      · intro m s' hf hr
        refine error _ s' (.inl hf) fun h => ?_
        obtain ⟨-, -, e', b, he', -, -, hl'⟩ := h.2.free ha
        rw [he] at he'
        cases he'
        rcases hr with hr | hr
        · exact hr h.1
        · rw [hl'] at hr
          cases hr
      · refine wp_sealAndPublish ha (fun s' h => cut s' (moves s' h.unlock)) ?_ ?_
        · intro b u t s' hu hp hs hk
          exact made e.root b u t _ owned ⟨e, he, rfl⟩ hu hp.lock hs (setLock_restore hl' hk)
        · intro e' s' h hr
          refine error e' _ (moves _ h.unlock.lock) fun hc => hr ?_
          obtain ⟨ho, hev, e', b, he', hb, hm, -⟩ := hc.2.free ha
          rw [he] at he'
          cases he'
          exact ⟨hc.1, hc.2.readable.1, ho, hev, b, hb, hm⟩
  · dsimp only
    split
    · rename_i hd
      exact ⟨still s' h.frame, found c payload b s' owned h hd.1 hd.2.1 hd.2.2⟩
    · rename_i hd
      refine ⟨still s' h.frame, error _ s' (.inl h.frame) fun hc => hd ?_⟩
      obtain ⟨x, hx⟩ := h.object
      exact hc.2.same c x hx

theorem wp_resumeCommit {ctx : OperationContext} {target : ArchiveTarget} {view : DataView}
    {Q : HsmResult (Option ArchiveReceipt) → Disk (FileName κ) (Content κ) → Prop}
    (locks : ∀ s' d b, C s' → C (s'.setLock d .transferLock b))
    (cut : ∀ s', self.Commits ctx target view s s' → C s')
    (unsealed : ∀ e, decodeEndpoint target.destination = .ok e →
      s.lookup e.root .sealed = none → Q (.ok none) s)
    (found : ∀ c payload b s', self.Owned ctx target view s →
      self.Found target.key c payload b s s' → c.receipt.data = view.data →
      c.receipt.length = view.length → c.receipt.digest = view.digest →
      Q (.ok (some c.receipt)) s')
    (made : ∀ payload b u t s', self.Owned ctx target view s →
      (∃ e, decodeEndpoint target.destination = .ok e ∧ e.root = payload) → π.uuid t u →
      self.Published target view payload b u s s' →
      s'.Safe (objectsDir self.root) (receiptName target.key)
        (.committed ⟨attest view target.key u, target.destination⟩) → s'.locked = s.locked →
      Q (.ok (some (attest view target.key u))) s')
    (error : ∀ e s', self.Commits ctx target view s s' →
      ¬ (π.Smooth ∧ ∃ e, decodeEndpoint target.destination = .ok e ∧
        (s.lookup e.root .sealed ≠ none →
          self.Committable ctx target view ⟨view.length, view.digest⟩ s)) → Q (.error e) s') :
    (self.resumeCommit ctx target view : Io κ _).run.wp (fsMachine π) C Q s := by
  have now : C s := cut s (.inl (.refl s))
  apply Prog.wp_run_bind_of
  cases he : decodeEndpoint target.destination with
  | error e =>
    refine ⟨now, error e s (.inl (.refl s)) ?_⟩
    rintro ⟨-, e', he', -⟩
    rw [he] at he'
    cases he'
  | ok e =>
  refine ⟨now, ?_⟩
  apply Prog.wp_run_bind_of
  refine wp_existsFile now rfl ?_
  cases hl : s.lookup e.root .sealed with
  | none => exact ⟨now, unsealed e he hl⟩
  | some f =>
    apply Prog.wp_run_bind_of
    refine wp_commit locks cut ?_ ?_ fun e' s' hc hr => error e' s' hc ?_
    · intro c payload b s' ho h h₁ h₂ h₃
      exact ⟨cut s' (.inl h.frame), found c payload b s' ho h h₁ h₂ h₃⟩
    · intro payload b u t s' ho hd hu hp hs hk
      refine ⟨cut s' (.inr ⟨ho, hp.absent, payload, hd, .published hp⟩), ?_⟩
      exact made payload b u t s' ho hd hu hp hs hk
    · rintro ⟨hs, e', he', hc⟩
      rw [he] at he'
      cases he'
      exact hr ⟨hs, hc (by simp [hl])⟩

end LocalArchive

end HsmRs
