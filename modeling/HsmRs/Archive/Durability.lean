import HsmRs.Archive.Stored

/-! # Receipts survive power losses

A call that reports a receipt has made its object safe, and everything the object
rests on: its payload and seal, the directories of the archive and its identity.
The directories above the root are safe only if every open has found safe the ones
that were there already, since `lock_root` syncs the parents of those it creates.
-/

namespace HsmRs

open LocalArchive

variable {κ : Type} {s s' s'' : Disk (FileName κ) (Content κ)} {root : Dir} {id : String}

/-- The directories of the path that are there have safe entries. -/
def Anchored (root : Dir) (s : Disk (FileName κ) (Content κ)) : Prop :=
  ∀ p, p <:+ root → s.dir p = true → s.safeDir p = true

structure Rooted (root : Dir) (id : String) (s : Disk (FileName κ) (Content κ)) : Prop where
  named : id ≠ ""
  path : ∀ p, p <:+ root → s.Grounded p
  objects : s.Grounded (objectsDir root)
  attempts : s.Grounded (attemptsDir root)
  identity : s.Safe root .backendId (.text id)

namespace Rooted

theorem onward (h : Rooted root id s) (ho : Onward root s s') : Rooted root id s' :=
  ⟨h.named, fun p hp => ho.path p hp (h.path p hp),
    ho.grounded _ (List.suffix_cons _ _) h.objects, ho.grounded _ (List.suffix_cons _ _) h.attempts,
    ho.kept _ _ _ (.inr ⟨rfl, rfl⟩) h.identity⟩

theorem powerLoss (h : Rooted root id s) (hp : s.PowerLoss s') : Rooted root id s' := by
  have path : ∀ p, p <:+ root → s'.Grounded p := fun p hs => by
    have hd := hp.dir_safe p fun q hq => h.path q (hq.trans hs)
    exact ⟨hd, by rw [hp.safeDir]; exact hd⟩
  have hr := (path root (List.suffix_refl _)).1
  have below : ∀ x, s.Grounded (x :: root) → s'.Grounded (x :: root) := fun x hg =>
    hg.powerLoss hp <| by
      rintro _ _ ⟨⟩
      exact hr
  have hid := hp.lookup_safe hr h.identity.1 h.identity.2
  exact ⟨h.named, path, below _ h.objects, below _ h.attempts, hid, by rw [hp.safeFile]; exact hid⟩

theorem unique {id' : String} (h : Rooted root id s) (h' : Rooted root id' s) : id = id' := by
  have := h.identity.1.symm.trans h'.identity.1
  cases this
  rfl

end Rooted

section

variable [Crates]

theorem Opened.rooted (h : LocalArchive.Opened root id s s') (hr : s'.dir root = true)
    (hs : ∀ p, p <:+ root → s.dir p = true ∨ s'.safeDir p = true) (stored : Stored root s')
    (anchored : Anchored root s) : Rooted root id s' := by
  obtain ⟨x, hx⟩ := h.identity
  obtain rfl : x = true := stored.identity _ (.inl hx)
  refine ⟨h.named, fun p hp => ⟨h.tree.suffix hr hp, ?_⟩, h.objects, h.attempts, h.settled.safe hx⟩
  rcases hs p hp with hd | hs
  · exact h.opening.safeDirs hd (anchored p hp hd)
  · exact hs

variable [KeyHash κ]

/-- The object of the receipt is safe, with the bytes `b` in the directory `u`. -/
structure Enduring (root : Dir) (receipt : ArchiveReceipt) (u : String) (b : Bytes)
    (s : Disk (FileName κ) (Content κ)) : Prop where
  object : s.Safe (objectsDir root) (receiptName receipt.key)
    (.committed ⟨receipt, endpoint (u :: attemptsDir root)⟩)
  payload : Payload root ⟨receipt, endpoint (u :: attemptsDir root)⟩ u b s

namespace Enduring

variable {receipt : ArchiveReceipt} {u : String} {b : Bytes}

theorem onward (h : Enduring root receipt u b s) (ho : Onward root s s') :
    Enduring root receipt u b s' :=
  ⟨ho.kept _ _ _ (.inl ⟨.inl rfl, _, rfl⟩) h.object, h.payload.onward ho⟩

theorem powerLoss (h : Enduring root receipt u b s) (hp : s.PowerLoss s')
    (hr : Rooted root id s) : Enduring root receipt u b s' := by
  have hr' := hr.powerLoss hp
  have ho := hp.lookup_safe hr'.objects.1 h.object.1 h.object.2
  exact ⟨⟨ho, by rw [hp.safeFile]; exact ho⟩,
    h.payload.powerLoss hp (hr'.path root (List.suffix_refl _)).1⟩

theorem readable {a : LocalArchive} (h : Enduring a.root receipt u b s)
    (accepts : a.Accepts receipt.key) : a.Readable receipt.key s := by
  refine ⟨accepts, fun f hf => ?_⟩
  rw [h.object.1] at hf
  cases hf
  exact ⟨_, _, b, rfl, rfl, h.payload.backed⟩

/-- A call that reports a receipt knows an object that is there for good. -/
theorem of_knows {a : LocalArchive} {c : BackendCall} (stored : Stored a.root s')
    (h : a.Knows c receipt s s') :
    a.Accepts receipt.key ∧ ∃ u b, Enduring a.root receipt u b s' := by
  have enduring : ∀ {o : Committed}, s'.Safe (objectsDir a.root) (receiptName receipt.key)
      (.committed o) → o.receipt = receipt → ∃ u b, Enduring a.root receipt u b s' := by
    rintro ⟨r, endpoint⟩ hs rfl
    obtain ⟨-, o, u, b, hc, hp⟩ := stored.object _ _ (.inl hs.1)
    cases hc
    obtain rfl := hp.destination
    exact ⟨u, b, hs, hp⟩
  have hkey := h.key
  cases h with
  | @found o payload b hf ho =>
    refine ⟨hkey ▸ hf.accepts, enduring (o := o) ?_ ho⟩
    obtain ⟨x, hx⟩ := hf.object
    have named : Named (objectsDir a.root) (receiptName c.key : FileName κ) := hashed_named _
    have hl := hf.frame.now _ _ named
    rw [hx] at hl
    obtain ⟨⟨v, y⟩, hg, hv, -⟩ := hl.some_left
    obtain rfl : v = .committed o := hv
    obtain rfl : y = true := (stored.object _ _ (.inl hg)).1
    rw [hkey]
    exact hf.catalog.safe hg
  | @made target view payload b v hk _ hp hs hr =>
    subst hr
    exact ⟨hp.accepts, enduring hs rfl⟩

end Enduring

end

/-! ## The steps of a vault -/

/-- Crashes may be power losses, and others write no payload that is sealed. -/
structure Setting.Gentle (env : Setting κ) (root : Dir) : Prop where
  crash : ∀ {s s'}, env.crash s s' → s' = s.reboot ∨ s.PowerLoss s'
  between : ∀ {s s'}, env.between s s' → Beside root s s'

/-- Power can be lost at any moment; a root is opened when what is there of its path is safe. -/
def Setting.powered (root : Dir) : Setting κ where
  crash s s' := s' = s.reboot ∨ s.PowerLoss s'
  opens := Anchored root
  between := Beside root

theorem Setting.powered_gentle : (Setting.powered root : Setting κ).Gentle root := ⟨id, id⟩

/-- No file of an archive is there in either version. -/
structure Bare (root : Dir) (s : Disk (FileName κ) (Content κ)) : Prop where
  tree : s.Tree
  empty : ∀ d n f, Kept root d n → ¬ s.Has d n f

theorem Reference.blank_bare (root : Dir) : Bare root blank where
  tree x p h := by
    simp only [blank, decide_eq_true_eq, List.mem_cons, List.cons.injEq, List.not_mem_nil] at h
    rcases h with h | ⟨-, rfl⟩ | ⟨-, rfl⟩ | h
    · cases h
    · rfl
    · rfl
    · exact h.elim
  empty d n f _ hf := by
    rcases hf with hf | hf
    · simp [Disk.lookup, blank] at hf
    · cases hf

structure Vault.Solid [Crates] (root : Dir) (v : Vault κ) : Prop where
  tree : v.disk.Tree
  stored : Stored root v.disk
  handle : ∀ a, v.handle = some a → a.root = root ∧ v.disk.Grounded (attemptsDir root)

/-- Power losses aside, a step is onward; with one, what is rooted stays. -/
def Carries [KeyHash κ] [Crates] (root : Dir) (s s' : Disk (FileName κ) (Content κ)) : Prop :=
  ∀ id, Rooted root id s → Rooted root id s' ∧
    ∀ receipt u b, Enduring root receipt u b s → Enduring root receipt u b s'

section

variable [DecidableEq κ] [KeyHash κ] [Crates] {π : Policy (FileName κ) (Content κ)}
  {env : Setting κ} {v v' : Vault κ}

omit [DecidableEq κ] in
theorem Carries.of_onward (ho : Onward root s s') : Carries root s s' :=
  fun _ hr => ⟨hr.onward ho, fun _ _ _ he => he.onward ho⟩

omit [DecidableEq κ] in
theorem Carries.trans (h : Carries root s s') (h' : Carries root s' s'') : Carries root s s'' :=
  fun id hr => ⟨(h' id (h id hr).1).1, fun receipt u b he =>
    (h' id (h id hr).1).2 receipt u b ((h id hr).2 receipt u b he)⟩

omit [DecidableEq κ] in
theorem Carries.of_course (genv : env.Gentle root)
    (h : Onward root s s' ∨ ∃ s₁, Onward root s s₁ ∧ env.crash s₁ s') : Carries root s s' := by
  rcases h with ho | ⟨s₁, ho, hx⟩
  · exact .of_onward ho
  refine (Carries.of_onward ho).trans ?_
  rcases genv.crash hx with rfl | hp
  · exact .of_onward (.of_frame (Disk.frame_reboot s₁))
  · exact fun _ hr => ⟨hr.powerLoss hp, fun _ _ _ he => he.powerLoss hp hr⟩

omit [KeyHash κ] [Crates] in
theorem open_opening {id : String} (tree : s.Tree) :
    (∀ s', Cuts (fsMachine π) (LocalArchive.open root id : Io κ _).run s s' →
      Opening root id s s') ∧
    ∀ x s', Runs (fsMachine π) (LocalArchive.open root id : Io κ _).run s x s' →
      Opening root id s s' ∧ ∀ a, x = .ok a → a = ⟨root, id⟩ ∧
        LocalArchive.Opened root id s s' ∧ s'.dir root = true ∧
        ∀ p, p <:+ root → s.dir p = true ∨ s'.safeDir p = true := by
  have hw := LocalArchive.wp_open (π := π) (C := Opening root id s)
    (Q := fun x s' => Opening root id s s' ∧
    ∀ a, x = .ok a → a = ⟨root, id⟩ ∧ LocalArchive.Opened root id s s' ∧ s'.dir root = true ∧
      ∀ p, p <:+ root → s.dir p = true ∨ s'.safeDir p = true) tree
    (fun _ h => h.trans frame_lock) (fun _ h => h)
    (fun s' ho hd hp _ => ⟨ho.opening, by rintro a ⟨⟩; exact ⟨rfl, ho, hd, hp⟩⟩)
    fun e s' h _ => ⟨h, nofun⟩
  refine ⟨fun s' hc => Prog.wp_sound_cuts hw hc, fun x s' hr => ?_⟩
  have := Prog.wp_sound_runs hw hr
  exact this

namespace Vault

omit [DecidableEq κ] [KeyHash κ] in
theorem Solid.crash {handle : Option LocalArchive} {begun begun' : List BackendCall}
    (genv : env.Gentle root) (h : Solid root ⟨s, handle, begun⟩) (hx : env.crash s s') :
    Solid root ⟨s', none, begun'⟩ := by
  rcases genv.crash hx with rfl | hp
  · exact ⟨h.tree, h.stored.still (Disk.frame_reboot s), nofun⟩
  · exact ⟨hp.tree, h.stored.powerLoss hp, nofun⟩

theorem Step.course (genv : env.Gentle root) (h : Step π env root v v') (hv : v.Solid root) :
    Onward root v.disk v'.disk ∨ ∃ s, Onward root v.disk s ∧ env.crash s v'.disk := by
  cases h with
  | @call a s s' begun c x hr =>
    obtain ⟨rfl, -⟩ := hv.handle a rfl
    exact .inl (.of_moves (backendCall_runs hr).1)
  | @crash a s s' s'' begun c hc hx =>
    obtain ⟨rfl, -⟩ := hv.handle a rfl
    exact .inr ⟨s', .of_moves (backendCall_cuts hc), hx⟩
  | opened _ hr => exact .inl (.of_opening ((open_opening hv.tree).2 _ _ hr).1)
  | refused _ hr => exact .inl (.of_opening ((open_opening hv.tree).2 _ _ hr).1)
  | cut _ hc hx => exact .inr ⟨_, .of_opening ((open_opening hv.tree).1 _ hc), hx⟩
  | died hx => exact .inr ⟨_, .of_frame (.refl _), hx⟩
  | between hb => exact .inl (.of_beside (genv.between hb))

theorem Step.solid (genv : env.Gentle root) (h : Step π env root v v') (hv : v.Solid root) :
    v'.Solid root ∧ Carries root v.disk v'.disk := by
  refine ⟨?_, .of_course genv (h.course genv hv)⟩
  cases h with
  | @call a s s' begun c x hr =>
    obtain ⟨rfl, hg⟩ := hv.handle a rfl
    have hm := (backendCall_runs hr).1
    refine ⟨hr.tree hv.tree, hv.stored.moves hg hm, ?_⟩
    rintro _ ⟨⟩
    exact ⟨rfl, (Onward.of_moves hm).grounded _ (List.suffix_cons _ _) hg⟩
  | @crash a s s' s'' begun c hc hx =>
    obtain ⟨rfl, hg⟩ := hv.handle a rfl
    have hm := backendCall_cuts hc
    have solid : Solid a.root ⟨s', none, begun⟩ := ⟨hc.tree hv.tree, hv.stored.moves hg hm, nofun⟩
    exact solid.crash genv hx
  | @opened a s s' begun id _ hr =>
    obtain ⟨hw, hok⟩ := (open_opening hv.tree).2 _ _ hr
    obtain ⟨rfl, ho, -⟩ := hok a rfl
    refine ⟨ho.tree, hv.stored.opening hw, ?_⟩
    rintro _ ⟨⟩
    exact ⟨rfl, ho.attempts⟩
  | @refused e s s' begun id _ hr =>
    have hw := ((open_opening hv.tree).2 _ _ hr).1
    exact ⟨hr.tree hv.tree, hv.stored.opening hw, nofun⟩
  | @cut s s' s'' begun id _ hc hx =>
    have hw := (open_opening hv.tree).1 _ hc
    have solid : Solid root ⟨s', none, begun⟩ := ⟨hc.tree hv.tree, hv.stored.opening hw, nofun⟩
    exact solid.crash genv hx
  | died hx => exact hv.crash genv hx
  | @between handle s s' begun hb =>
    have hb := genv.between hb
    exact ⟨hb.tree hv.tree, hv.stored.beside hb, fun a ha => ⟨(hv.handle a ha).1,
      (Onward.of_beside hb).grounded _ (List.suffix_cons _ _) (hv.handle a ha).2⟩⟩

theorem Steps.solid (genv : env.Gentle root) (h : Steps π env root v v') (hv : v.Solid root) :
    v'.Solid root ∧ Carries root v.disk v'.disk := by
  induction h with
  | refl => exact ⟨hv, fun _ hr => ⟨hr, fun _ _ _ he => he⟩⟩
  | tail _ hs ih =>
    obtain ⟨hv', hk⟩ := hs.solid genv ih.1
    exact ⟨hv', ih.2.trans hk⟩

omit [DecidableEq κ] [KeyHash κ] in
theorem Bare.solid (h : Bare root s) : Solid root (⟨s, none, []⟩ : Vault κ) := by
  refine ⟨h.tree, ⟨fun f hf => ?_, fun k f hf => ?_, fun k f hf => ?_⟩, nofun⟩
  · exact (h.empty _ _ f (.inr ⟨rfl, rfl⟩) hf).elim
  · exact (h.empty _ _ f (.inl ⟨.inr rfl, k, rfl⟩) hf).elim
  · exact (h.empty _ _ f (.inl ⟨.inl rfl, k, rfl⟩) hf).elim

def Founded (root : Dir) (v : Vault κ) : Prop :=
  ∀ a, v.handle = some a → a.root = root ∧ Rooted root a.id v.disk

theorem Step.founded (genv : env.Gentle root) (anchored : ∀ s, env.opens s → Anchored root s)
    (h : Step π env root v v') (hv : v.Solid root) (hf : v.Founded root) : v'.Founded root := by
  obtain ⟨-, hk⟩ := h.solid genv hv
  cases h with
  | call => exact fun a ha => ⟨(hf a ha).1, (hk _ (hf a ha).2).1⟩
  | between => exact fun a ha => ⟨(hf a ha).1, (hk _ (hf a ha).2).1⟩
  | @opened a s s' begun id ho hr =>
    obtain ⟨hw, hok⟩ := (open_opening hv.tree).2 _ _ hr
    obtain ⟨rfl, hopened, hd, hp⟩ := hok a rfl
    rintro _ ⟨⟩
    exact ⟨rfl, Opened.rooted hopened hd hp (hv.stored.opening hw) (anchored _ ho)⟩
  | crash => exact nofun
  | refused => exact nofun
  | cut => exact nofun
  | died => exact nofun

theorem Steps.founded (genv : env.Gentle root) (anchored : ∀ s, env.opens s → Anchored root s)
    (h : Steps π env root v v') (hv : v.Solid root) (hf : v.Founded root) : v'.Founded root := by
  induction h with
  | refl => exact hf
  | tail hs h ih => exact h.founded genv anchored (Steps.solid genv hs hv).1 ih

def From (π : Policy (FileName κ) (Content κ)) (env : Setting κ) (root : Dir)
    (v : Vault κ) : Prop :=
  ∃ s, Bare root s ∧ Steps π env root ⟨s, none, []⟩ v

theorem From.solid (genv : env.Gentle root) (h : From π env root v) : v.Solid root := by
  obtain ⟨s, hb, hs⟩ := h
  exact (hs.solid genv (Bare.solid hb)).1

end Vault

/-- Opened again, the archive says of the key that this receipt is committed, and the payload has
these bytes and is sealed. Without faults, it is opened again and does say so. -/
structure Recovers (root : Dir) (receipt : ArchiveReceipt) (payload : Dir) (b : Bytes)
    (s : Disk (FileName κ) (Content κ)) : Prop where
  answers : ∀ {π : Policy (FileName κ) (Content κ)} {a s₁ status s₂},
    Runs (fsMachine π) (LocalArchive.open root receipt.key.backend).run s (.ok a) s₁ →
    Runs (fsMachine π) (a.inspect receipt.key).run s₁ (.ok status) s₂ →
    status = .committed receipt ∧ s₂.Holds payload b ∧ s₂.lookup payload .sealed ≠ none
  opens : ∀ {π : Policy (FileName κ) (Content κ)} {x s₁}, π.Smooth →
    Runs (fsMachine π) (LocalArchive.open root receipt.key.backend).run s x s₁ →
    ∃ a, x = .ok a ∧ ∀ y s₂, Runs (fsMachine π) (a.inspect receipt.key).run s₁ y s₂ →
      ∃ status, y = .ok status

namespace Enduring

variable {receipt : ArchiveReceipt} {u : String} {b : Bytes}

omit [DecidableEq κ] in
theorem stands (h : Enduring root receipt u b s) : s.Holds (u :: attemptsDir root) b ∧
    s.lookup (u :: attemptsDir root) .sealed ≠ none :=
  ⟨⟨true, h.payload.data.1⟩, h.payload.mark.1⟩

theorem inspected (h : Enduring root receipt u b s) (ho : receipt.key.object ≠ "")
    {y : HsmResult ArchiveStatus} (hy : Runs (fsMachine π)
      ((⟨root, receipt.key.backend⟩ : LocalArchive).inspect receipt.key).run s y s') :
    Enduring root receipt u b s' ∧ (π.Smooth → ∃ status, y = .ok status) ∧
      ∀ status, y = .ok status → status = .committed receipt := by
  have readable := h.readable (a := ⟨root, receipt.key.backend⟩) ⟨rfl, ho⟩
  have onward : ∀ s', Frame Named s s' → Enduring root receipt u b s' := fun _ hf =>
    h.onward (.of_frame hf)
  have := Prog.wp_sound_runs (wp_inspect (C := fun _ => True)
    (Q := fun y s' => Enduring root receipt u b s' ∧ (π.Smooth → ∃ status, y = .ok status) ∧
      ∀ status, y = .ok status → status = .committed receipt)
    (fun _ _ => trivial) (fun hn => ?_) (fun o payload b' s' hf => ?_) fun e s' hf hn => ?_) hy
  · exact this
  · rw [h.object.1] at hn
    cases hn
  · obtain ⟨z, hz⟩ := hf.object
    rw [h.object.1] at hz
    cases hz
    exact ⟨onward s' hf.frame, fun _ => ⟨_, rfl⟩, by rintro _ ⟨⟩; rfl⟩
  · exact ⟨onward s' hf, fun hs => (hn ⟨hs, readable⟩).elim, nofun⟩

/-- An object that is there for good in an archive that is there for good is found after every
crash. -/
theorem recovers (h : Enduring root receipt u b s) (hr : Rooted root receipt.key.backend s)
    (tree : s.Tree) (ho : receipt.key.object ≠ "") (unlocked : s.locked root .ownerLock = false) :
    Recovers root receipt (u :: attemptsDir root) b s := by
  refine ⟨fun {π a s₁ status s₂} hx hy => ?_, fun {π x s₁} hs hx => ?_⟩
  · obtain ⟨hw, ha⟩ := (open_opening tree).2 _ _ hx
    obtain ⟨rfl, -⟩ := ha a rfl
    obtain ⟨he, -, hst⟩ := (h.onward (.of_opening hw)).inspected ho hy
    exact ⟨hst status rfl, he.stands⟩
  · obtain ⟨rfl, hw⟩ := Prog.wp_sound_runs (LocalArchive.wp_open (π := π) (C := fun _ => True)
      (Q := fun x s' => x = .ok ⟨root, receipt.key.backend⟩ ∧ Opening root receipt.key.backend s s')
      tree (fun _ _ => trivial) (fun _ _ => trivial) (fun s' ho _ _ _ => ⟨rfl, ho.opening⟩)
      fun e s' _ hn => (hn ⟨hs, (hr.path [] List.nil_suffix).1, unlocked, hr.named, fun f hf => by
        rw [hr.identity.1] at hf
        cases hf
        rfl⟩).elim) hx
    refine ⟨_, rfl, fun y s₂ hy => ?_⟩
    exact ((h.onward (.of_opening hw)).inspected ho hy).2.1 hs

theorem recovers_crash (genv : env.Gentle root) (h : Enduring root receipt u b s)
    (hr : Rooted root receipt.key.backend s) (tree : s.Tree) (ho : receipt.key.object ≠ "")
    (hx : env.crash s s') : Recovers root receipt (u :: attemptsDir root) b s' := by
  obtain ⟨hr', he⟩ := Carries.of_course genv (.inr ⟨s, .of_frame (.refl s), hx⟩) _ hr
  have crashed : s'.Tree ∧ s'.locked root .ownerLock = false := by
    rcases genv.crash hx with rfl | hp
    · exact ⟨tree, rfl⟩
    · exact ⟨hp.tree, hp.locked _ _⟩
  exact (he _ _ _ h).recovers hr' crashed.1 ho crashed.2

end Enduring

end

end HsmRs
