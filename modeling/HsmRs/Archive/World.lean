import HsmRs.Archive.Opening
import HsmRs.Local.Adapters

/-! # Runs of the local archive

One root, at most one open handle, and everything that can happen to them: calls
one after the other, crashes in the middle of calls, opening again, and payloads
that change by themselves. A `resume_commit` looks for the seal before it takes the
lock of the archive; one that goes on from there is a `commit` of its own.
-/

namespace HsmRs

variable {κ : Type} {s s' s'' : Disk (FileName κ) (Content κ)}

def BackendCall.reports : (c : BackendCall) → c.Ans → Option ArchiveReceipt
  | .inspect _, .ok (.committed receipt) => some receipt
  | .resumeCommit _ _ _, .ok (some receipt) => some receipt
  | .commit _ _ _ _, .ok receipt => some receipt
  | .open receipt, .ok _ => some receipt
  | _, _ => none

def BackendCall.key : BackendCall → ArchiveKey
  | .inspect key => key
  | .prepare _ key _ => key
  | .resumeCommit _ target _ => target.key
  | .commit _ target _ _ => target.key
  | .open receipt => receipt.key

namespace LocalArchive

variable [KeyHash κ] [Crates] {a : LocalArchive} {c : BackendCall} {receipt : ArchiveReceipt}

/-- What a call can do to the disk, whether it ends or is cut off. -/
inductive Moves (a : LocalArchive) (s s' : Disk (FileName κ) (Content κ)) : BackendCall → Prop where
  | still {c : BackendCall} : Frame Named s s' → Moves a s s' c
  | prepared {ctx : OperationContext} {archive : ArchiveKey} {view : DataView} {u : String} :
      a.Attempted ctx archive view u s s' → Moves a s s' (.prepare ctx archive view)
  | resumed {ctx : OperationContext} {target : ArchiveTarget} {view : DataView} :
      a.Commits ctx target view s s' → Moves a s s' (.resumeCommit ctx target view)
  | committed {ctx : OperationContext} {target : ArchiveTarget} {view : DataView}
      {evidence : TransferEvidence} :
      a.Commits ctx target view s s' → Moves a s s' (.commit ctx target view evidence)

/-- How a call that reports a receipt knows of it: it has read the object back, or published
it. -/
inductive Knows (a : LocalArchive) (c : BackendCall) (receipt : ArchiveReceipt)
    (s s' : Disk (FileName κ) (Content κ)) : Prop where
  | found {o : Committed} {payload : Dir} {b : Bytes} : a.Found c.key o payload b s s' →
      o.receipt = receipt → Knows a c receipt s s'
  | made {target : ArchiveTarget} {view : DataView} {payload : Dir} {b : Bytes} {u : String} :
      target.key = c.key → (∃ e, decodeEndpoint target.destination = .ok e ∧ e.root = payload) →
      a.Published target view payload b u s s' →
      s'.Safe (objectsDir a.root) (receiptName target.key)
        (.committed ⟨attest view target.key u, target.destination⟩) →
      attest view target.key u = receipt → Knows a c receipt s s'

theorem Knows.key (h : a.Knows c receipt s s') : receipt.key = c.key := by
  cases h with
  | found hf hr => rw [← hr, hf.key]
  | made hk _ _ _ hr => rw [← hr, ← hk]; rfl

def Lists (a : LocalArchive) (receipt : ArchiveReceipt) (s : Disk (FileName κ) (Content κ)) :
    Prop :=
  ∃ payload, s.reads (objectsDir a.root) (receiptName receipt.key) =
    some (.committed ⟨receipt, payload⟩)

omit [Crates] in
theorem Lists.unique {receipt' : ArchiveReceipt} (h : a.Lists receipt s) (h' : a.Lists receipt' s)
    (hk : receipt.key = receipt'.key) : receipt = receipt' := by
  obtain ⟨p, hp⟩ := h
  obtain ⟨q, hq⟩ := h'
  rw [hk, hq] at hp
  cases hp
  rfl

theorem Knows.lists (h : a.Knows c receipt s s') : a.Lists receipt s' := by
  cases h with
  | @found o payload b hf hr =>
    obtain ⟨x, hx⟩ := hf.object
    refine ⟨o.payload, ?_⟩
    subst hr
    have named : Named (objectsDir a.root) (receiptName c.key : FileName κ) := fun h => h
    rw [hf.key, hf.frame.reads named]
    exact Disk.reads_of hx
  | made _ _ hp _ hr =>
    subst hr
    exact ⟨_, Disk.reads_of hp.object⟩

variable [DecidableEq κ] {π : Policy (FileName κ) (Content κ)}

theorem wp_backendCall : (Stores.backendCall a c).wp (fsMachine π) (fun s' => a.Moves s s' c)
    (fun x s' => a.Moves s s' c ∧ ∀ r, c.reports x = some r → a.Knows c r s s') s := by
  have still : ∀ s', Frame Named s s' → a.Moves s s' c := fun _ => .still
  have silent : ∀ {s'}, a.Moves s s' c → a.Moves s s' c ∧ ∀ r, none = some r → a.Knows c r s s' :=
    fun h => ⟨h, nofun⟩
  cases c with
  | inspect archive =>
    refine wp_inspect still (fun _ => silent (still s (.refl s))) ?_
      fun _ s' hf _ => silent (still s' hf)
    rintro o payload b s' h
    exact ⟨still s' h.frame, fun r hr => .found h (Option.some.inj hr)⟩
  | prepare ctx archive view =>
    have moves : ∀ s', Frame Named s s' ∨ (∃ u, a.Attempted ctx archive view u s s') →
        a.Moves s s' (.prepare ctx archive view) := by
      rintro s' (hf | ⟨u, hu⟩)
      · exact .still hf
      · exact .prepared hu
    refine wp_prepare moves ?_ ?_ fun _ s' h _ => silent (moves s' h)
    · intro p x _ _ _ _ _
      exact silent (still s (.refl s))
    · intro u s' _ hu _ _
      exact silent (.prepared hu)
  | resumeCommit ctx target view =>
    refine wp_resumeCommit ?_ (fun _ => .resumed) ?_ ?_ ?_
      fun _ s' h _ => silent (.resumed h)
    · intro s' d x h
      cases h with
      | still hf => exact .still (hf.trans frame_lock)
      | resumed hc => exact .resumed hc.lock
    · intro e _ _
      exact silent (still s (.refl s))
    · intro o payload b s' _ h _ _ _
      exact ⟨still s' h.frame, fun r hr => .found h (Option.some.inj hr)⟩
    · intro payload b u t s' ho hd _ hp hs _
      exact ⟨.resumed (.inr ⟨ho, hp.absent, payload, hd, .published hp⟩),
        fun r hr => .made rfl hd hp hs (Option.some.inj hr)⟩
  | commit ctx target view evidence =>
    refine wp_commit ?_ (fun _ => .committed) ?_ ?_
      fun _ s' h _ => silent (.committed h)
    · intro s' d x h
      cases h with
      | still hf => exact .still (hf.trans frame_lock)
      | committed hc => exact .committed hc.lock
    · intro o payload b s' _ h _ _ _
      exact ⟨still s' h.frame, fun r hr => .found h (Option.some.inj hr)⟩
    · intro payload b u t s' ho hd _ hp hs _
      exact ⟨.committed (.inr ⟨ho, hp.absent, payload, hd, .published hp⟩),
        fun r hr => .made rfl hd hp hs (Option.some.inj hr)⟩
  | «open» receipt =>
    refine wp_openReceipt still ?_ fun _ s' hf _ => silent (still s' hf)
    intro o payload b s' h ho
    refine ⟨still s' h.frame, fun r hr => .found h ?_⟩
    rw [ho]
    exact Option.some.inj hr

theorem backendCall_runs {x : c.Ans} (h : Runs (fsMachine π) (Stores.backendCall a c) s x s') :
    a.Moves s s' c ∧ ∀ r, c.reports x = some r → a.Knows c r s s' := by
  have := Prog.wp_sound_runs wp_backendCall h
  exact this

theorem backendCall_cuts (h : Cuts (fsMachine π) (Stores.backendCall a c) s s') :
    a.Moves s s' c := by
  have := Prog.wp_sound_cuts wp_backendCall h
  exact this

/-! ### Single answers -/

theorem inspect_runs {archive : ArchiveKey} {status : ArchiveStatus}
    (h : Runs (fsMachine π) (a.inspect archive).run s (.ok status) s') :
    status = .absent ∧ s.lookup (objectsDir a.root) (receiptName archive) = none ∨
      ∃ o payload b, a.Found archive o payload b s s' ∧ status = .committed o.receipt := by
  have := Prog.wp_sound_runs (C := fun _ => True) (wp_inspect
    (Q := fun r s' => ∀ status, r = .ok status →
      status = .absent ∧ s.lookup (objectsDir a.root) (receiptName archive) = none ∨
        ∃ o payload b, a.Found archive o payload b s s' ∧ status = .committed o.receipt)
    (fun _ _ => trivial) (fun hl => by rintro _ ⟨⟩; exact .inl ⟨rfl, hl⟩)
    (fun o payload b s' hf => by rintro _ ⟨⟩; exact .inr ⟨o, payload, b, hf, rfl⟩)
    fun _ _ _ _ => nofun) h
  exact this status rfl

theorem prepare_runs {ctx : OperationContext} {archive : ArchiveKey} {view : DataView}
    {target : ArchiveTarget}
    (h : Runs (fsMachine π) (a.prepare ctx archive view).run s (.ok target) s') :
    s.lookup (objectsDir a.root) (receiptName archive) = none := by
  have := Prog.wp_sound_runs (C := fun _ => True) (wp_prepare
    (Q := fun r _ => ∀ target, r = .ok target →
      s.lookup (objectsDir a.root) (receiptName archive) = none)
    (fun _ _ => trivial) (fun _ _ hl _ _ _ _ _ _ => hl) (fun _ _ hl _ _ _ _ _ => hl)
    fun _ _ _ _ => nofun) h
  exact this target rfl

theorem openReceipt_runs {e : DataEndpoint}
    (h : Runs (fsMachine π) (a.openReceipt receipt).run s (.ok e) s') :
    ∃ o payload b, a.Found receipt.key o payload b s s' ∧ o.receipt = receipt ∧ e = o.payload := by
  have := Prog.wp_sound_runs (C := fun _ => True) (wp_openReceipt
    (Q := fun r s' => ∀ e, r = .ok e → ∃ o payload b, a.Found receipt.key o payload b s s' ∧
      o.receipt = receipt ∧ e = o.payload)
    (fun _ _ => trivial)
    (fun o payload b s' hf ho => by rintro _ ⟨⟩; exact ⟨o, payload, b, hf, ho, rfl⟩)
    fun _ _ _ _ => nofun) h
  exact this e rfl

end LocalArchive

/-! ## The world of one archive -/

/-- A disk, the open handle and the calls that have been begun so far. -/
structure Vault (κ : Type) where
  disk : Disk (FileName κ) (Content κ)
  handle : Option LocalArchive
  begun : List BackendCall

/-- The surroundings of a run: what a crash makes of the disk, on which disks a root is opened,
and what happens to the disk in between. -/
structure Setting (κ : Type) where
  crash : Disk (FileName κ) (Content κ) → Disk (FileName κ) (Content κ) → Prop
  opens : Disk (FileName κ) (Content κ) → Prop
  between : Disk (FileName κ) (Content κ) → Disk (FileName κ) (Content κ) → Prop

section

variable [DecidableEq κ] [KeyHash κ] [Crates]

/-- Everything that can happen to an archive: a call, a crash in a call, an open that goes
well, one that fails, one that crashes, a crash between calls, and what others do to the
disk. -/
inductive Vault.Step (π : Policy (FileName κ) (Content κ)) (env : Setting κ) (root : Dir) :
    Vault κ → Vault κ → Prop where
  | call {a : LocalArchive} {s s' : Disk (FileName κ) (Content κ)} {begun : List BackendCall}
      {c : BackendCall} {x : c.Ans} : Runs (fsMachine π) (Stores.backendCall a c) s x s' →
      Step π env root ⟨s, some a, begun⟩ ⟨s', some a, c :: begun⟩
  | crash {a : LocalArchive} {s s' s'' : Disk (FileName κ) (Content κ)} {begun : List BackendCall}
      {c : BackendCall} : Cuts (fsMachine π) (Stores.backendCall a c) s s' → env.crash s' s'' →
      Step π env root ⟨s, some a, begun⟩ ⟨s'', none, c :: begun⟩
  | opened {a : LocalArchive} {s s' : Disk (FileName κ) (Content κ)} {begun : List BackendCall}
      {id : String} : env.opens s →
      Runs (fsMachine π) (LocalArchive.open root id).run s (.ok a) s' →
      Step π env root ⟨s, none, begun⟩ ⟨s', some a, begun⟩
  | refused {e : HsmError} {s s' : Disk (FileName κ) (Content κ)} {begun : List BackendCall}
      {id : String} : env.opens s →
      Runs (fsMachine π) (LocalArchive.open root id : Io κ _).run s (.error e) s' →
      Step π env root ⟨s, none, begun⟩ ⟨s', none, begun⟩
  | cut {s s' s'' : Disk (FileName κ) (Content κ)} {begun : List BackendCall} {id : String} :
      env.opens s → Cuts (fsMachine π) (LocalArchive.open root id : Io κ _).run s s' →
      env.crash s' s'' → Step π env root ⟨s, none, begun⟩ ⟨s'', none, begun⟩
  | died {handle : Option LocalArchive} {s s' : Disk (FileName κ) (Content κ)}
      {begun : List BackendCall} : env.crash s s' →
      Step π env root ⟨s, handle, begun⟩ ⟨s', none, begun⟩
  | between {handle : Option LocalArchive} {s s' : Disk (FileName κ) (Content κ)}
      {begun : List BackendCall} : env.between s s' →
      Step π env root ⟨s, handle, begun⟩ ⟨s', handle, begun⟩

abbrev Vault.Steps (π : Policy (FileName κ) (Content κ)) (env : Setting κ) (root : Dir) :
    Vault κ → Vault κ → Prop := Relation.ReflTransGen (Vault.Step π env root)

end

/-- The records of the archive stay as they are; anything else may change. -/
structure Around (root : Dir) (s s' : Disk (FileName κ) (Content κ)) : Prop where
  objects : ∀ h, s'.reads (objectsDir root) (.hashed h) = s.reads (objectsDir root) (.hashed h)
  attempts : ∀ h, s'.reads (attemptsDir root) (.hashed h) = s.reads (attemptsDir root) (.hashed h)

/-- Processes die, and payloads change as they like. -/
def Setting.loose (root : Dir) : Setting κ where
  crash s s' := s' = s.reboot
  opens _ := True
  between := Around root

/-- A vault reached from a root without records of an archive. -/
def Vault.Reachable [DecidableEq κ] [KeyHash κ] [Crates] (π : Policy (FileName κ) (Content κ))
    (root : Dir) (v : Vault κ) : Prop :=
  ∃ s, (∀ h, s.reads (objectsDir root) (.hashed h) = none ∧
      s.reads (attemptsDir root) (.hashed h) = none) ∧
    Vault.Steps π (.loose root) root ⟨s, none, []⟩ v

end HsmRs
