import HsmRs.Archive.Play

/-! # One receipt for a key

The records of the archive are never changed: attempts are recorded once, objects
enter the catalog once, and each object has the content of the view its attempt was
prepared with. So the first receipt that is reported for a key is the only one.
-/

namespace HsmRs

variable {κ : Type} {s s' s'' : Disk (FileName κ) (Content κ)} {root : Dir}
  {begun : List BackendCall}

def Record (root d : Dir) (n : FileName κ) : Prop :=
  (d = objectsDir root ∨ d = attemptsDir root) ∧ ∃ h, n = .hashed h

theorem hashed_named (h : κ) : ¬ (FileName.hashed h).IsTemp := fun h => h

theorem Record.named {d : Dir} {n : FileName κ} (h : Record root d n) : Named d n := by
  obtain ⟨-, h, rfl⟩ := h
  exact hashed_named h

/-- Some commitment of the attempt has been begun. -/
def Prepared.Committed (p : Prepared) (begun : List BackendCall) : Prop :=
  ∃ ctx, sameAttempt p.context ctx ∧
    (.resumeCommit ctx p.target p.view ∈ begun ∨
      ∃ evidence, .commit ctx p.target p.view evidence ∈ begun)

theorem Prepared.Committed.begin {p : Prepared} (h : p.Committed begun) (c : BackendCall) :
    p.Committed (c :: begun) := by
  obtain ⟨ctx, hs, hb⟩ := h
  refine ⟨ctx, hs, hb.imp (List.mem_cons_of_mem _) ?_⟩
  rintro ⟨evidence, hb⟩
  exact ⟨evidence, List.mem_cons_of_mem _ hb⟩

namespace LocalArchive

def Grows (root : Dir) (s s' : Disk (FileName κ) (Content κ)) : Prop :=
  ∀ d n c, Record root d n → s.reads d n = some c → s'.reads d n = some c

theorem Grows.trans (h : Grows root s s') (h' : Grows root s' s'') : Grows root s s'' :=
  fun d n _ hr hl => h' d n _ hr (h d n _ hr hl)

def Same (root : Dir) (s s' : Disk (FileName κ) (Content κ)) : Prop :=
  ∀ d n, Record root d n → s'.reads d n = s.reads d n

theorem Same.grows (h : Same root s s') : Grows root s s' :=
  fun d n _ hr hl => (h d n hr).trans hl

theorem Same.of_frame {K : Dir → FileName κ → Prop} (hf : Frame K s s')
    (hk : ∀ d n, Record root d n → K d n) : Same root s s' := fun d n hr => hf.reads (hk d n hr)

theorem Same.around (ha : Around root s s') : Same root s s' := by
  rintro d n ⟨rfl | rfl, h, rfl⟩
  · exact ha.objects h
  · exact ha.attempts h

theorem Grows.of_new {K : Dir → FileName κ → Prop} {d : Dir} {n : FileName κ} (hf : Frame K s s')
    (hk : ∀ d' n', Record root d' n' → ¬ (d' = d ∧ n' = n) → K d' n')
    (hn : s.lookup d n = none) : Grows root s s' := by
  intro d' n' c hr hl
  have : ¬ (d' = d ∧ n' = n) := by
    rintro ⟨rfl, rfl⟩
    rw [Disk.reads_eq_none.mpr hn] at hl
    cases hl
  rw [hf.reads (hk d' n' hr this)]
  exact hl

variable [Crates]

/-- Every attempt was prepared by a call, and every object is the payload of an attempt with
the content that the attempt was prepared with. -/
structure Catalogued (root : Dir) (begun : List BackendCall) (s : Disk (FileName κ) (Content κ)) :
    Prop where
  attempt : ∀ h c, s.reads (attemptsDir root) (.hashed h) = some c → ∃ p, c = .prepared p ∧
    p.target.key = p.key ∧ (∃ u, p.target.destination = endpoint (u :: attemptsDir root)) ∧
    .prepare p.context p.key p.view ∈ begun
  object : ∀ h c, s.reads (objectsDir root) (.hashed h) = some c → ∃ h' p u,
    c = .committed ⟨attest p.view p.key u, p.target.destination⟩ ∧
    s.reads (attemptsDir root) (.hashed h') = some (.prepared p) ∧ p.Committed begun

namespace Catalogued

theorem begin (h : Catalogued root begun s) (c : BackendCall) : Catalogued root (c :: begun) s where
  attempt n f hl := by
    obtain ⟨p, hc, hk, hd, hb⟩ := h.attempt n f hl
    exact ⟨p, hc, hk, hd, List.mem_cons_of_mem _ hb⟩
  object n f hl := by
    obtain ⟨n', p, u, hc, hp, hb⟩ := h.object n f hl
    exact ⟨n', p, u, hc, hp, hb.begin c⟩

theorem same (h : Catalogued root begun s) (hs : Same root s s') : Catalogued root begun s' where
  attempt n c hl := by
    rw [hs _ _ ⟨.inr rfl, n, rfl⟩] at hl
    exact h.attempt n c hl
  object n c hl := by
    rw [hs _ _ ⟨.inl rfl, n, rfl⟩] at hl
    obtain ⟨n', p, u, hc, hp, hb⟩ := h.object n c hl
    exact ⟨n', p, u, hc, (hs _ _ ⟨.inr rfl, n', rfl⟩).trans hp, hb⟩

variable [KeyHash κ] {a : LocalArchive} {c : BackendCall}

theorem attempted {ctx : OperationContext} {archive : ArchiveKey} {view : DataView} {u : String}
    (h : Catalogued a.root begun s) (ha : a.Attempted ctx archive view u s s')
    (hb : .prepare ctx archive view ∈ begun) :
    Catalogued a.root begun s' ∧ Grows a.root s s' := by
  have grows : Grows a.root s s' := .of_new ha.placed.others
    (fun d n hr hn => ⟨hr.named, hn⟩) ha.absent
  refine ⟨⟨fun n c hl => ?_, fun n c hl => ?_⟩, grows⟩
  · by_cases hn : (.hashed n : FileName κ) = preparedPath ctx archive
    · rw [hn, Disk.reads_of ha.placed.now] at hl
      cases hl
      exact ⟨_, rfl, rfl, ⟨u, rfl⟩, hb⟩
    · rw [ha.placed.others.reads ⟨hashed_named n, fun h => hn h.2⟩] at hl
      exact h.attempt n c hl
  · have other : ¬ objectsDir a.root = attemptsDir a.root := by simp [objectsDir, attemptsDir]
    rw [ha.placed.others.reads ⟨hashed_named n, fun h => other h.1⟩] at hl
    obtain ⟨n', p, u, hc, hp, hb⟩ := h.object n c hl
    exact ⟨n', p, u, hc, grows _ _ _ ⟨.inr rfl, n', rfl⟩ hp, hb⟩

theorem committed {ctx : OperationContext} {target : ArchiveTarget} {view : DataView}
    (h : Catalogued a.root begun s) (hm : a.Commits ctx target view s s')
    (hb : .resumeCommit ctx target view ∈ begun ∨ ∃ evidence,
      .commit ctx target view evidence ∈ begun) :
    Catalogued a.root begun s' ∧ Grows a.root s s' := by
  have same : Same a.root s s' → Catalogued a.root begun s' ∧ Grows a.root s s' :=
    fun hs => ⟨h.same hs, hs.grows⟩
  rcases hm with hf | ⟨ho, -, payload, -, hf | hs | hp⟩
  · exact same (.of_frame hf fun _ _ => Record.named)
  · exact same (.of_frame hf fun _ _ => Record.named)
  · refine same (.of_frame hs.others ?_)
    rintro d n ⟨-, k, rfl⟩
    exact ⟨hashed_named k, by simp⟩
  · have untouched : ∀ (d : Dir) (n : FileName κ), Record a.root d n →
        ¬ (d = objectsDir a.root ∧ n = receiptName target.key) →
        a.Untouched target.key payload d n := by
      rintro d n ⟨hd, k, rfl⟩ hn
      exact ⟨⟨hashed_named k, by simp⟩, hashed_named k, hn⟩
    have grows : Grows a.root s s' := .of_new hp.others untouched hp.absent
    have other : ¬ attemptsDir a.root = objectsDir a.root := by simp [objectsDir, attemptsDir]
    refine ⟨⟨fun n c hl => ?_, fun n c hl => ?_⟩, grows⟩
    · rw [hp.others.reads (untouched _ _ ⟨.inr rfl, n, rfl⟩ fun h => other h.1)] at hl
      exact h.attempt n c hl
    · by_cases hn : (.hashed n : FileName κ) = receiptName target.key
      · rw [hn, Disk.reads_of hp.object] at hl
        cases hl
        obtain ⟨p, x, hl, hs, rfl, rfl⟩ := ho
        obtain ⟨p', hp', hk, -, -⟩ := h.attempt _ _ (Disk.reads_of hl)
        cases hp'
        refine ⟨_, p, _, by rw [hk], grows _ _ _ ⟨.inr rfl, _, rfl⟩ (Disk.reads_of hl), ctx, hs, hb⟩
      · rw [hp.others.reads (untouched _ _ ⟨.inl rfl, n, rfl⟩ fun h => hn h.2)] at hl
        obtain ⟨n', p, u, hc, hp', hb'⟩ := h.object n c hl
        exact ⟨n', p, u, hc, grows _ _ _ ⟨.inr rfl, n', rfl⟩ hp', hb'⟩

theorem moves (h : Catalogued a.root begun s) (hm : a.Moves s s' c) :
    Catalogued a.root (c :: begun) s' ∧ Grows a.root s s' := by
  have h' := h.begin c
  cases hm with
  | still hf =>
    have hs : Same a.root s s' := .of_frame hf fun _ _ => Record.named
    exact ⟨h'.same hs, hs.grows⟩
  | prepared hp => exact h'.attempted hp List.mem_cons_self
  | resumed hc => exact h'.committed hc (.inl List.mem_cons_self)
  | committed hc => exact h'.committed hc (.inr ⟨_, List.mem_cons_self⟩)

end Catalogued

end LocalArchive

open LocalArchive

section

variable [Crates] [KeyHash κ] [DecidableEq κ] {π : Policy (FileName κ) (Content κ)} {v v' : Vault κ}

/-- The archive knows no other receipt for the key of this one, does not deny the object, prepares
no attempt for the key, and opens the payload of this receipt only. -/
structure LocalArchive.Insists (π : Policy (FileName κ) (Content κ)) (a : LocalArchive)
    (receipt : ArchiveReceipt) (s : Disk (FileName κ) (Content κ)) : Prop where
  reports : ∀ c (x : c.Ans) r s', c.key = receipt.key →
    Runs (fsMachine π) (Stores.backendCall a c) s x s' → c.reports x = some r → r = receipt
  inspects : ∀ status s', Runs (fsMachine π) (a.inspect receipt.key).run s (.ok status) s' →
    status = .committed receipt
  prepares : ∀ ctx view y s', Runs (fsMachine π) (a.prepare ctx receipt.key view).run s y s' →
    ∃ e, y = .error e
  opens : ∀ r endpoint s', r.key = receipt.key →
    Runs (fsMachine π) (a.openReceipt r).run s (.ok endpoint) s' →
    r = receipt ∧ ∃ e b, decodeEndpoint endpoint = .ok e ∧ s'.Holds e.root b ∧
      receipt.length = b.length ∧ receipt.digest = digestOf b

theorem LocalArchive.Lists.insists {a : LocalArchive} {receipt : ArchiveReceipt}
    (h : a.Lists receipt s) : a.Insists π receipt s := by
  obtain ⟨payload, hl⟩ := h
  have present : s.lookup (objectsDir a.root) (receiptName receipt.key) ≠ none := fun hn => by
    rw [Disk.reads_eq_none.mpr hn] at hl
    cases hl
  have found : ∀ {archive o payload b s'}, a.Found archive o payload b s s' →
      archive = receipt.key → o.receipt = receipt := by
    rintro archive o payload b s' hf rfl
    obtain ⟨y, hy⟩ := hf.object
    rw [Disk.reads_of hy] at hl
    cases hl
    rfl
  refine ⟨fun c x r s' hk hr hx => ?_, fun status s' hr => ?_, fun ctx view y s' hr => ?_,
    fun r e s' hk hr => ?_⟩
  · obtain ⟨-, knows⟩ := backendCall_runs hr
    cases knows r hx with
    | found hf ho => exact ho.symm.trans (found hf hk)
    | made ht _ hp _ _ => exact (present (hk ▸ ht ▸ hp.absent)).elim
  · rcases inspect_runs hr with ⟨-, hn⟩ | ⟨o, payload, b, hf, rfl⟩
    · exact (present hn).elim
    · rw [found hf rfl]
  · rcases y with e | target
    · exact ⟨e, rfl⟩
    · exact (present (prepare_runs hr)).elim
  · obtain ⟨o, payload, b, hf, ho, rfl⟩ := openReceipt_runs hr
    have hreceipt := found hf hk
    obtain ⟨e, he, rfl⟩ := hf.backed.decodes
    rw [← hreceipt]
    exact ⟨ho.symm, e, b, he, ⟨true, hf.data.1⟩, hf.backed.length, hf.backed.digest⟩

structure Vault.Sound (root : Dir) (v : Vault κ) : Prop where
  catalogued : Catalogued root v.begun v.disk
  root_eq : ∀ a, v.handle = some a → a.root = root

namespace Vault

theorem Step.sound (h : Step π (.loose root) root v v') (hv : v.Sound root) :
    v'.Sound root ∧ Grows root v.disk v'.disk := by
  have opening : ∀ {s s' : Disk (FileName κ) (Content κ)}, Frame (Record root) s s' →
      Same root s s' := fun hf => .of_frame hf fun _ _ h => h
  have spares : ∀ id, (LocalArchive.open root id : Io κ _).run.Within
    (FsOp.Spares (Record root)) := fun id =>
    spares_open (fun _ _ => Record.named) fun ⟨_, _, he⟩ => by cases he
  cases h with
  | @call a s s' begun c x hr =>
    obtain rfl := hv.root_eq a rfl
    obtain ⟨hc, hg⟩ := hv.catalogued.moves (backendCall_runs hr).1
    exact ⟨⟨hc, hv.root_eq⟩, hg⟩
  | @crash a s s' s'' begun c hc hx =>
    obtain rfl : s'' = s'.reboot := hx
    obtain rfl := hv.root_eq a rfl
    obtain ⟨hc, hg⟩ := hv.catalogued.moves (backendCall_cuts hc)
    exact ⟨⟨⟨hc.attempt, hc.object⟩, nofun⟩, hg⟩
  | @opened a s s' begun id _ hr =>
    have same := opening (hr.frame (spares id))
    refine ⟨⟨hv.catalogued.same same, ?_⟩, same.grows⟩
    rintro a' ⟨⟩
    rw [yields_open hr.yields]
  | @refused e s s' begun id _ hr =>
    have same := opening (hr.frame (spares id))
    exact ⟨⟨hv.catalogued.same same, nofun⟩, same.grows⟩
  | @cut s s' s'' begun id _ hc hx =>
    obtain rfl : s'' = s'.reboot := hx
    have same := opening (hc.frame (spares id))
    have := hv.catalogued.same same
    exact ⟨⟨⟨this.attempt, this.object⟩, nofun⟩, same.grows⟩
  | died hx =>
    cases hx
    exact ⟨⟨⟨hv.catalogued.attempt, hv.catalogued.object⟩, nofun⟩, fun _ _ _ _ h => h⟩
  | between ha => exact ⟨⟨hv.catalogued.same (.around ha), hv.root_eq⟩, (Same.around ha).grows⟩

theorem Steps.sound (h : Steps π (.loose root) root v v') (hv : v.Sound root) :
    v'.Sound root ∧ Grows root v.disk v'.disk := by
  induction h with
  | refl => exact ⟨hv, fun _ _ _ _ h => h⟩
  | tail _ hs ih =>
    obtain ⟨hv', hg⟩ := hs.sound ih.1
    exact ⟨hv', ih.2.trans hg⟩

omit [DecidableEq κ] [KeyHash κ] in
theorem Sound.new (h : ∀ k, s.reads (objectsDir root) (.hashed k) = none ∧
    s.reads (attemptsDir root) (.hashed k) = none) : Sound root ⟨s, none, []⟩ := by
  refine ⟨⟨fun n c hl => ?_, fun n c hl => ?_⟩, nofun⟩
  · rw [(h n).2] at hl
    cases hl
  · rw [(h n).1] at hl
    cases hl

theorem Reachable.sound (h : Reachable π root v) : v.Sound root := by
  obtain ⟨s, hn, h⟩ := h
  exact (h.sound (.new hn)).1

end Vault

/-- Once a call has reported a receipt, the archive knows no other receipt for its key, no longer
denies the object, prepares no attempt for the key and opens the payload of this receipt only; and
the receipt has the content of the view that its attempt was prepared with. Processes may die at
any moment and payloads change as they like, but no power is lost: `receipt_forever_powered` is
for that. -/
theorem receipt_forever {a : LocalArchive} {c : BackendCall} {x : c.Ans} {receipt : ArchiveReceipt}
    (h : v.Reachable π root) (hv : v.handle = some a)
    (hr : Runs (fsMachine π) (Stores.backendCall a c) v.disk x s')
    (hx : c.reports x = some receipt) :
    receipt.key = c.key ∧
    (∃ h p, s'.reads (objectsDir root) (receiptName receipt.key) =
        some (.committed ⟨receipt, p.target.destination⟩) ∧
      s'.reads (attemptsDir root) (.hashed h) = some (.prepared p) ∧
      .prepare p.context receipt.key p.view ∈ c :: v.begun ∧ p.Committed (c :: v.begun) ∧
      receipt.data = p.view.data ∧ receipt.length = p.view.length ∧
      receipt.digest = p.view.digest) ∧
    ∀ v' a', Vault.Steps π (.loose root) root ⟨s', some a, c :: v.begun⟩ v' → v'.handle = some a' →
      (∀ c' (x' : c'.Ans) r s'', c'.key = receipt.key →
        Runs (fsMachine π) (Stores.backendCall a' c') v'.disk x' s'' →
        c'.reports x' = some r → r = receipt) ∧
      (∀ status s'', Runs (fsMachine π) (a'.inspect receipt.key).run v'.disk (.ok status) s'' →
        status = .committed receipt) ∧
      (∀ ctx view y s'', Runs (fsMachine π) (a'.prepare ctx receipt.key view).run v'.disk y s'' →
        ∃ e, y = .error e) ∧
      ∀ r endpoint s'', r.key = receipt.key →
        Runs (fsMachine π) (a'.openReceipt r).run v'.disk (.ok endpoint) s'' →
        r = receipt ∧ ∃ e b, decodeEndpoint endpoint = .ok e ∧ s''.Holds e.root b ∧
          receipt.length = b.length ∧ receipt.digest = digestOf b := by
  obtain ⟨s, handle, begun⟩ := v
  obtain rfl : handle = some a := hv
  obtain ⟨hc, hroot⟩ := h.sound
  obtain rfl : a.root = root := hroot a rfl
  obtain ⟨hm, hk⟩ := backendCall_runs hr
  have knows := hk receipt hx
  obtain ⟨hc', -⟩ := hc.moves hm
  have lists : a.Lists receipt s' := knows.lists
  refine ⟨knows.key, ?_, fun v' a' hs hv' => ?_⟩
  · obtain ⟨payload, hl⟩ := lists
    obtain ⟨n, p, u, he, hp, hb⟩ := hc'.object _ _ hl
    obtain ⟨p', hp', -, -, hb'⟩ := hc'.attempt _ _ hp
    cases hp'
    cases he
    exact ⟨n, p, hl, hp, hb', hb, rfl, rfl, rfl⟩
  obtain ⟨⟨-, hroot'⟩, hg⟩ := hs.sound (v := ⟨s', some a, c :: begun⟩) ⟨hc', hroot⟩
  have same : a'.root = a.root := hroot' a' hv'
  have lists' : a'.Lists receipt v'.disk := by
    obtain ⟨payload, hl⟩ := lists
    refine ⟨payload, ?_⟩
    rw [same]
    exact hg _ _ _ ⟨.inl rfl, _, rfl⟩ hl
  have insists : a'.Insists π receipt v'.disk := lists'.insists
  exact ⟨insists.reports, insists.inspects, insists.prepares, insists.opens⟩

end

open Reference in
theorem receipt_forever_committed : ∃ v archive x s', attempting = some v ∧
    Runs (fsMachine anything) (Stores.backendCall archive committing) (filled v.disk) x s' ∧
    ∀ v' a', Vault.Steps anything (.loose ["a"]) ["a"]
      ⟨s', some archive, committing :: v.begun⟩ v' →
      v'.handle = some a' → ∀ status s'',
        Runs (fsMachine anything) (a'.inspect ⟨"b", "o"⟩).run v'.disk (.ok status) s'' →
        status = .committed receipt := by
  obtain ⟨v, archive, x, s', hv, ha, hs, hr, hx⟩ := committed_runs (.loose ["a"]) trivial
  have around : Around ["a"] v.disk (filled v.disk) := by
    constructor <;> intro h <;> rfl
  obtain ⟨s, handle, begun⟩ := v
  have reachable : Vault.Reachable anything ["a"] ⟨filled s, handle, begun⟩ :=
    ⟨blank, fun _ => ⟨rfl, rfl⟩, hs.tail (.between around)⟩
  refine ⟨_, archive, x, s', hv, hr, fun v' a' h ha' => ?_⟩
  exact ((receipt_forever reachable ha hr hx).2.2 v' a' h ha').2.1

end HsmRs
