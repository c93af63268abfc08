import HsmRs.Archive.Epochs

/-! # Attempts and their targets

An attempt that has been recorded keeps its target, whoever comes back to it, and no
two attempts share one.
-/

namespace HsmRs

open LocalArchive

variable {κ : Type} {s s' s'' : Disk (FileName κ) (Content κ)} {root : Dir} {env : Setting κ}

/-! ## Records of attempts -/

/-- A private directory is the target of one attempt only. -/
def Apart (root : Dir) (s : Disk (FileName κ) (Content κ)) : Prop :=
  ∀ h h' p p' b b', s.Has (attemptsDir root) (.hashed h) ⟨.prepared p, b⟩ →
    s.Has (attemptsDir root) (.hashed h') ⟨.prepared p', b'⟩ →
    p.target.destination = p'.target.destination → p = p'

/-- The private directory `u` is there for good, for the attempt `p` and no other. -/
structure Claimed [Crates] (root : Dir) (p : Prepared) (u : String)
    (s : Disk (FileName κ) (Content κ)) :
    Prop where
  houses : Houses root u s
  only : ∀ h p' b, s.Has (attemptsDir root) (.hashed h) ⟨.prepared p', b⟩ →
    p'.target.destination = endpoint (u :: attemptsDir root) → p' = p

inductive Notes [Crates] (root : Dir) (s s' : Disk (FileName κ) (Content κ)) : Prop where
  | none :
      (∀ h f, s'.Has (attemptsDir root) (.hashed h) f → s.Has (attemptsDir root) (.hashed h) f) →
      Notes root s s'
  | one {p : Prepared} {u : String} :
      p.target.destination = endpoint (u :: attemptsDir root) →
      s.dir (u :: attemptsDir root) = false →
      (∀ h f, s'.Has (attemptsDir root) (.hashed h) f → s.Has (attemptsDir root) (.hashed h) f ∨
        f = ⟨.prepared p, true⟩) → Notes root s s'

/-! ## What stands through crashes -/

/-- Crashes leave the disk as it is. -/
def Setting.Calm (env : Setting κ) : Prop := ∀ s s', env.crash s s' → s' = s.reboot

/-- No crash takes away what is there for good. -/
def Stands (env : Setting κ) (root : Dir) (s : Disk (FileName κ) (Content κ)) : Prop :=
  env.Calm ∨ ∃ id, Rooted root id s

/-- What is there for good stays, and goes on to stay. -/
structure Stays (env : Setting κ) (root : Dir) (s s' : Disk (FileName κ) (Content κ)) : Prop where
  stands : Stands env root s'
  houses : ∀ u, Houses root u s → Houses root u s'
  record : ∀ k c, s.Safe (attemptsDir root) (.hashed k) c → s'.Safe (attemptsDir root) (.hashed k) c

theorem Stays.trans (h : Stays env root s s') (h' : Stays env root s' s'') :
    Stays env root s s'' :=
  ⟨h'.stands, fun u hu => h'.houses u (h.houses u hu), fun k c hc =>
    h'.record k c (h.record k c hc)⟩

namespace Stands

theorem onward (h : Stands env root s) (ho : Onward root s s') : Stays env root s s' :=
  ⟨h.imp_right (.imp fun _ hr => hr.onward ho), fun _ hh => hh.onward ho,
    fun k _ => ho.kept _ _ _ (.inl ⟨.inr rfl, k, rfl⟩)⟩

theorem crash (genv : env.Gentle root) (h : Stands env root s) (hx : env.crash s s') :
    Stays env root s s' := by
  have reboot : s' = s.reboot → Stays env root s s' := by
    rintro rfl
    exact h.onward (.of_frame (Disk.frame_reboot s))
  rcases h with calm | ⟨id, hr⟩
  · exact reboot (calm _ _ hx)
  rcases genv.crash hx with he | hp
  · exact reboot he
  have hr' := hr.powerLoss hp
  refine ⟨.inr ⟨id, hr'⟩, fun u hu => hu.powerLoss hp (hr'.path root (List.suffix_refl _)).1, ?_⟩
  intro k c hc
  have hl := hp.lookup_safe hr'.attempts.1 hc.1 hc.2
  exact ⟨hl, by rw [hp.safeFile]; exact hl⟩

theorem course (genv : env.Gentle root) (h : Stands env root s)
    (hc : Onward root s s' ∨ ∃ s₁, Onward root s s₁ ∧ env.crash s₁ s') : Stays env root s s' := by
  rcases hc with ho | ⟨s₁, ho, hx⟩
  · exact h.onward ho
  · have hs := h.onward ho
    exact hs.trans (hs.stands.crash genv hx)

end Stands

section

variable [Crates]

theorem Apart.notes (h : Apart root s) (stored : Stored root s) (hn : Notes root s s') :
    Apart root s' := by
  cases hn with
  | none old => exact fun k k' p p' b b' hp hp' hd => h k k' p p' b b' (old _ _ hp) (old _ _ hp') hd
  | @one q u hq hu new =>
    -- an old record has its directory, which the new one did not find
    have other : ∀ {k p b}, s.Has (attemptsDir root) (.hashed k) ⟨.prepared p, b⟩ →
        p.target.destination ≠ q.target.destination := by
      intro k p b hp he
      obtain ⟨-, p', v, hc, hd, hh⟩ := stored.attempt _ _ hp
      cases hc
      rw [hd, hq] at he
      obtain ⟨rfl, -⟩ := List.cons.inj (endpoint_injective he)
      have := hh.2.1
      rw [hu] at this
      cases this
    intro k k' p p' b b' hp hp' hd
    rcases new _ _ hp with hp | hf <;> rcases new _ _ hp' with hp' | hf'
    · exact h k k' p p' b b' hp hp' hd
    · cases hf'
      exact (other hp hd).elim
    · cases hf
      exact (other hp' hd.symm).elim
    · cases hf
      cases hf'
      rfl

theorem Claimed.notes {p : Prepared} {u : String} (h : Claimed root p u s) (hn : Notes root s s')
    (houses : Houses root u s') : Claimed root p u s' := by
  refine ⟨houses, fun k p' b hp hd => ?_⟩
  cases hn with
  | none old => exact h.only k p' b (old _ _ hp) hd
  | @one q v hq hv new =>
    rcases new _ _ hp with hp | hf
    · exact h.only k p' b hp hd
    · cases hf
      obtain ⟨rfl, -⟩ := List.cons.inj (endpoint_injective (hq.symm.trans hd))
      rw [h.houses.2.1] at hv
      cases hv

theorem Notes.trans_none (h : Notes root s s')
    (old : ∀ h f, s''.Has (attemptsDir root) (.hashed h) f →
      s'.Has (attemptsDir root) (.hashed h) f) :
    Notes root s s'' := by
  cases h with
  | none hn => exact .none fun k f hf => hn k f (old k f hf)
  | one hq hu hn => exact .one hq hu fun k f hf => hn k f (old k f hf)

theorem Notes.of_frame {K : Dir → FileName κ → Prop} (stored : Stored root s) (hf : Frame K s s')
    (hk : ∀ k, K (attemptsDir root) (.hashed k)) : Notes root s s' :=
  .none fun k _ hv => hv.of_frame hf (hk k) fun g hg => (stored.attempt k g hg).1

theorem Notes.of_moves [KeyHash κ] {a : LocalArchive} {c : BackendCall} (stored : Stored a.root s)
    (h : a.Moves s s' c) : Notes a.root s s' := by
  have commits : ∀ {ctx target view}, a.Commits ctx target view s s' → Notes a.root s s' := by
    rintro ctx target view (hf | ⟨-, -, payload, -, hf | hs | hp⟩)
    · exact .of_frame stored hf hashed_named
    · exact .of_frame stored hf hashed_named
    · exact .of_frame stored hs.others fun k => ⟨hashed_named k, by simp⟩
    · refine .of_frame stored hp.others fun k => ⟨⟨hashed_named k, by simp⟩, hashed_named k, ?_⟩
      simp [objectsDir, attemptsDir]
  cases h with
  | still hf => exact .of_frame stored hf hashed_named
  | @prepared ctx archive view u ha =>
    refine .one (p := ⟨ctx, archive, view, ⟨archive, endpoint (u :: attemptsDir a.root)⟩⟩) rfl
      ha.unmade fun k f hf => ?_
    have synced : ∀ g, s.Has (attemptsDir a.root) (.hashed k) g → g.synced = true :=
      fun g hg => (stored.attempt k g hg).1
    by_cases hn : (.hashed k : FileName κ) = preparedPath ctx archive
    · rw [hn] at hf synced ⊢
      exact ha.placed.has hf synced
    · exact .inl (hf.of_frame ha.placed.others ⟨hashed_named k, fun h => hn h.2⟩ synced)
  | resumed hc => exact commits hc
  | committed hc => exact commits hc

theorem Notes.of_opening {id : String} (stored : Stored root s) (h : Opening root id s s') :
    Notes root s s' := .of_frame stored h.others fun k => ⟨hashed_named k, by simp⟩

theorem Notes.crash {env : Setting κ} (genv : env.Gentle root) (stored : Stored root s')
    (h : Notes root s s') (hx : env.crash s' s'') : Notes root s s'' := by
  refine h.trans_none fun k f hf => ?_
  rcases genv.crash hx with rfl | hp
  · exact hf
  · exact (hf.of_powerLoss hp fun g hg => (stored.attempt k g hg).1).2

variable [DecidableEq κ] [KeyHash κ] {π : Policy (FileName κ) (Content κ)} {env : Setting κ}
  {v v' : Vault κ}

theorem Vault.Step.notes (genv : env.Gentle root) (h : Step π env root v v') (hv : v.Solid root) :
    Notes root v.disk v'.disk := by
  cases h with
  | @call a s s' begun c x hr =>
    obtain ⟨rfl, -⟩ := hv.handle a rfl
    exact .of_moves hv.stored (backendCall_runs hr).1
  | @crash a s s' s'' begun c hc hx =>
    obtain ⟨rfl, hg⟩ := hv.handle a rfl
    have hm := backendCall_cuts hc
    exact (Notes.of_moves hv.stored hm).crash genv (hv.stored.moves hg hm) hx
  | opened _ hr => exact .of_opening hv.stored ((open_opening hv.tree).2 _ _ hr).1
  | refused _ hr => exact .of_opening hv.stored ((open_opening hv.tree).2 _ _ hr).1
  | cut _ hc hx =>
    have hw := (open_opening hv.tree).1 _ hc
    exact (Notes.of_opening hv.stored hw).crash genv (hv.stored.opening hw) hx
  | died hx =>
    exact (Notes.none fun _ _ h => h).crash genv hv.stored hx
  | between hb =>
    refine .of_frame hv.stored (genv.between hb).files fun k => ⟨hashed_named k, ?_, nofun⟩
    exact List.suffix_cons _ _

theorem Vault.Steps.apart (genv : env.Gentle root) (h : Steps π env root v v') (hv : v.Solid root)
    (ha : Apart root v.disk) : Apart root v'.disk := by
  induction h with
  | refl => exact ha
  | tail hs h ih =>
    have solid := (Steps.solid genv hs hv).1
    exact ih.notes solid.stored (h.notes genv solid)

theorem Vault.From.apart (genv : env.Gentle root) (h : From π env root v) : Apart root v.disk := by
  obtain ⟨s, hb, hs⟩ := h
  refine hs.apart genv (Bare.solid hb) fun k k' p p' b b' hp _ _ => ?_
  exact (hb.empty _ _ _ (.inl ⟨.inr rfl, k, rfl⟩) hp).elim

/-! ## What `prepare` answers -/

omit [DecidableEq κ] in
/-- The attempt that `prepare` answers for is on record, with the private directory `u`. -/
structure Targeted (root : Dir) (ctx : OperationContext) (archive : ArchiveKey) (view : DataView)
    (p : Prepared) (u : String) (s s' : Disk (FileName κ) (Content κ)) : Prop where
  record : s'.lookup (attemptsDir root) (preparedPath ctx archive) = some ⟨.prepared p, true⟩
  owner : sameAttempt p.context ctx
  key : p.key = archive
  view : p.view = view
  destination : p.target.destination = endpoint (u :: attemptsDir root)
  houses : Houses root u s'
  resumed_or_made : s' = s ∨ s.lookup (attemptsDir root) (preparedPath ctx archive) = none ∧
    s.dir (u :: attemptsDir root) = false ∧
      s'.Safe (attemptsDir root) (preparedPath ctx archive) (.prepared p)

theorem prepare_targeted {a : LocalArchive} {ctx : OperationContext} {archive : ArchiveKey}
    {view : DataView} {target : ArchiveTarget} (stored : Stored a.root s)
    (hg : s.Grounded (attemptsDir a.root))
    (h : Runs (fsMachine π) (a.prepare ctx archive view).run s (.ok target) s') :
    ∃ p u, p.target = target ∧ Targeted a.root ctx archive view p u s s' := by
  have := Prog.wp_sound_runs (C := fun _ => True) (wp_prepare (π := π)
    (Q := fun r s' => ∀ target, r = .ok target → ∃ p u, p.target = target ∧
      Targeted a.root ctx archive view p u s s')
    (fun _ _ => trivial) (fun p x _ hl owner key view => ?_) (fun u s' _ ha safe _ => ?_)
    fun _ _ _ _ => nofun) h
  · exact this target rfl
  · rintro _ ⟨⟩
    obtain ⟨hx, _, u, hc, hd, hh⟩ := stored.attempt _ _ (.inl hl)
    cases hc
    obtain rfl : x = true := hx
    exact ⟨p, u, rfl, hl, owner, key, view, hd, hh, .inl rfl⟩
  · rintro _ ⟨⟩
    have grounded := (Onward.of_attempted ha).grounded _ (List.suffix_cons _ _) hg
    exact ⟨_, u, rfl, safe.1, ⟨rfl, rfl⟩, rfl, rfl, rfl, ⟨grounded, ha.dir, ha.safe⟩,
      .inr ⟨ha.absent, ha.unmade, safe⟩⟩

theorem prepare_resumes {a : LocalArchive} {ctx : OperationContext} {archive : ArchiveKey}
    {p : Prepared} {x : HsmResult ArchiveTarget} (hπ : π.Smooth) (validate : ctx.validate = .ok ())
    (accepts : a.Accepts archive) (hg : s.Grounded (attemptsDir a.root))
    (absent : s.lookup (objectsDir a.root) (receiptName archive) = none)
    (hr : s.reads (attemptsDir a.root) (preparedPath ctx archive) = some (.prepared p))
    (owner : sameAttempt p.context ctx) (hk : p.key = archive)
    (h : Runs (fsMachine π) (a.prepare ctx archive p.view).run s x s') : x = .ok p.target := by
  have := Prog.wp_sound_runs (C := fun _ => True) (wp_prepare (π := π)
    (Q := fun r _ => r = .ok p.target) (fun _ _ => trivial) (fun q x _ hl _ _ _ => ?_)
    (fun u s' _ ha _ _ => ?_) fun e s' _ hn =>
      (hn ⟨hπ, validate, accepts, absent, ?_, hg.1⟩).elim) h
  · exact this
  · rw [Disk.reads_of hl] at hr
    cases hr
    rfl
  · rw [Disk.reads_eq_none.mpr ha.absent] at hr
    cases hr
  · rintro ⟨c, y⟩ hl
    rw [Disk.reads_of hl] at hr
    cases hr
    exact ⟨p, rfl, owner, hk, rfl⟩

namespace Targeted

variable {ctx ctx' : OperationContext} {archive archive' : ArchiveKey} {view view' : DataView}
  {p p' : Prepared} {u u' : String}

omit [DecidableEq κ] in
theorem claimed (h : Targeted root ctx archive view p u s s') (apart : Apart root s') :
    Claimed root p u s' :=
  ⟨h.houses, fun _ _ _ hp hd => apart _ _ _ _ _ _ hp (.inl h.record) (hd.trans h.destination.symm)⟩

omit [DecidableEq κ] in
theorem of_claimed (h : Targeted root ctx archive view p u s s') (hc : Claimed root p' u' s)
    (hd : p.target.destination = endpoint (u' :: attemptsDir root)) : p = p' := by
  obtain ⟨rfl, -⟩ := List.cons.inj (endpoint_injective (h.destination.symm.trans hd))
  rcases h.resumed_or_made with rfl | ⟨-, hn, -⟩
  · exact hc.only _ _ _ (.inl h.record) hd
  · rw [hc.houses.2.1] at hn
    cases hn

omit [DecidableEq κ] in
theorem of_record (h : Targeted root ctx archive view p u s s')
    (hr : s.reads (attemptsDir root) (preparedPath ctx archive) = some (.prepared p')) :
    p = p' := by
  rcases h.resumed_or_made with rfl | ⟨hn, -⟩
  · rw [Disk.reads_of h.record] at hr
    cases hr
    rfl
  · rw [Disk.reads_eq_none.mpr hn] at hr
    cases hr

end Targeted

theorem Vault.Steps.stays (genv : env.Gentle root) (h : Steps π env root v v') (hv : v.Solid root)
    (hs : Stands env root v.disk) : Stays env root v.disk v'.disk := by
  induction h with
  | refl => exact ⟨hs, fun _ hu => hu, fun _ _ hc => hc⟩
  | tail hs' h ih =>
      exact ih.trans (ih.stands.course genv (h.course genv (Steps.solid genv hs' hv).1))

theorem Vault.Steps.claimed {p : Prepared} {u : String} (genv : env.Gentle root)
    (h : Steps π env root v v') (hv : v.Solid root) (hs : Stands env root v.disk)
    (hc : Claimed root p u v.disk) : Claimed root p u v'.disk := by
  induction h with
  | refl => exact hc
  | tail hs' h ih =>
    have solid := (Steps.solid genv hs' hv).1
    have stays := (Steps.stays genv hs' hv hs).stands.course genv (h.course genv solid)
    exact ih.notes (h.notes genv solid) (stays.houses _ ih.houses)

omit [DecidableEq κ] [KeyHash κ] [Crates] in
theorem Beside.around (h : Beside root s s') : Around root s s' := by
  have records : ∀ x k, s'.reads (x :: root) (.hashed k) = s.reads (x :: root) (.hashed k) :=
    fun x k => h.files.reads ⟨hashed_named k, List.suffix_cons _ _, nofun⟩
  exact ⟨records _, records _⟩

/-- Where crashes leave the disk as it is, a step is one of the loose setting. -/
theorem Vault.Step.loose (genv : env.Gentle root) (calm : env.Calm) (h : Step π env root v v') :
    Step π (.loose root) root v v' := by
  cases h with
  | call hr => exact .call hr
  | crash hc hx => exact .crash hc (calm _ _ hx)
  | opened _ hr => exact .opened trivial hr
  | refused _ hr => exact .refused trivial hr
  | cut _ hc hx => exact .cut trivial hc (calm _ _ hx)
  | died hx => exact .died (calm _ _ hx)
  | between hb => exact .between (genv.between hb).around

omit [DecidableEq κ] [KeyHash κ] [Crates] in
theorem Vault.Bare.blank (h : Bare root s) (k : κ) :
    s.reads (objectsDir root) (.hashed k) = none ∧
      s.reads (attemptsDir root) (.hashed k) = none := by
  have none : ∀ x, x = objectsDir root ∨ x = attemptsDir root →
      s.reads x (.hashed k) = none := by
    intro x hx
    rw [Disk.reads_eq_none]
    by_contra hn
    obtain ⟨f, hf⟩ := Option.ne_none_iff_exists'.mp hn
    exact h.empty x (.hashed k) f (.inl ⟨hx, k, rfl⟩) (.inl hf)
  exact ⟨none _ (.inl rfl), none _ (.inr rfl)⟩

theorem Vault.From.reachable (genv : env.Gentle root) (calm : env.Calm) (h : From π env root v) :
    v.Reachable π root := by
  obtain ⟨s, hb, hs⟩ := h
  exact ⟨s, Bare.blank hb,
    Relation.ReflTransGen.mono (fun _ _ h => Vault.Step.loose genv calm h) _ _ hs⟩

/-! ## Controllers and attempts -/

/-- No answer of an archive depends on the controller epochs in its calls: whatever happens to it
happens the same way with other controllers, and leaves the same disk but for the epochs that the
records of attempts remember. A target that `prepare` has answered is resumed by whoever calls
with the same attempt, for as long as its record cannot be lost, and it is never the target of
another attempt. -/
theorem attempts_ignore_controller (hπ : π.Blind Content.Alike) (henv : env.Blind)
    (genv : env.Gentle root) :
    (∀ es es' v v' w, List.Forall₂ Vault.Event.Alike es es' → v.Alike w →
      Vault.Happens π env root es v v' →
      ∃ w', Vault.Happens π env root es' w w' ∧ v'.Alike w') ∧
    ∀ a ctx archive view target s s' begun v' a', Vault.From π env root ⟨s, some a, begun⟩ →
      Runs (fsMachine π) (a.prepare ctx archive view).run s (.ok target) s' →
      Vault.Steps π env root ⟨s', some a, .prepare ctx archive view :: begun⟩ v' →
      v'.handle = some a' → ∀ ctx',
      (sameAttempt ctx ctx' → env.Calm ∨ (∀ s, env.opens s → Anchored root s) ∧
          s.lookup (attemptsDir root) (preparedPath ctx archive) = none →
        (∀ view' target' s'', Runs (fsMachine π) (a'.prepare ctx' archive view').run v'.disk
            (.ok target') s'' → target' = target ∧ view' = view) ∧
        (π.Smooth → ctx'.validate = .ok () → a'.Accepts archive →
          v'.disk.lookup (objectsDir root) (receiptName archive) = none →
          ∀ x s'', Runs (fsMachine π) (a'.prepare ctx' archive view).run v'.disk x s'' →
            x = .ok target)) ∧
      (env.Calm ∨ (∀ s, env.opens s → Anchored root s) →
        ∀ archive' view' target' s'', Runs (fsMachine π) (a'.prepare ctx' archive' view').run
          v'.disk (.ok target') s'' → target'.destination = target.destination →
          sameAttempt ctx ctx' ∧ archive' = archive ∧ view' = view) := by
  refine ⟨fun es es' v v' w he hv h => h.alike hπ henv he hv, ?_⟩
  intro a ctx archive view target s s' begun v' a' hfrom hp hs ha' ctx'
  have solid := hfrom.solid genv
  obtain ⟨rfl, hg⟩ := solid.handle a rfl
  obtain ⟨p, u, rfl, ht⟩ := prepare_targeted solid.stored hg hp
  have step : Vault.Step π env a.root ⟨s, some a, begun⟩
    ⟨s', some a, .prepare ctx archive view :: begun⟩ :=
    .call (c := .prepare ctx archive view) hp
  obtain ⟨s₀, bare, steps⟩ := hfrom
  have hfrom' : Vault.From π env a.root ⟨s', some a, .prepare ctx archive view :: begun⟩ :=
    ⟨s₀, bare, steps.tail step⟩
  have solid' := hfrom'.solid genv
  have after := (hs.solid genv solid').1
  obtain ⟨hroot, hg'⟩ := after.handle a' ha'
  have stands : env.Calm ∨ (∀ s, env.opens s → Anchored a.root s) → Stands env a.root s' := by
    refine Or.imp_right fun anchored => ?_
    have founded := Vault.Steps.founded genv anchored (steps.tail step)
      (Vault.Bare.solid bare) nofun
    exact ⟨a.id, (founded a rfl).2⟩
  have answered : ∀ {ctx' archive' view' target' s''}, Runs (fsMachine π)
      (a'.prepare ctx' archive' view').run v'.disk (.ok target') s'' → ∃ p' u',
        p'.target = target' ∧
        Targeted a.root ctx' archive' view' p' u' v'.disk s'' := fun hr => by
    rw [← hroot]
    exact prepare_targeted (hroot ▸ after.stored) (hroot ▸ hg') hr
  refine ⟨fun same lasts => ?_, fun lasting archive' view' target' s'' hr hd => ?_⟩
  · have recorded : v'.disk.reads (attemptsDir a.root) (preparedPath ctx' archive) =
        some (.prepared p) := by
      rw [← preparedPath_eq same]
      rcases lasts with calm | ⟨anchored, none⟩
      · have reachable := (hfrom'.reachable genv calm).sound
        have grows := (Vault.Steps.sound (Relation.ReflTransGen.mono
          (fun _ _ h => Vault.Step.loose genv calm h) _ _ hs) reachable).2
        exact grows _ _ _ ⟨.inr rfl, _, rfl⟩ (Disk.reads_of ht.record)
      · rcases ht.resumed_or_made with rfl | ⟨-, -, safe⟩
        · rw [ht.record] at none
          cases none
        · exact Disk.reads_of ((hs.stays genv solid' (stands (.inr anchored))).record _ _ safe).1
    obtain rfl := ht.key
    obtain rfl := ht.view
    have owner : sameAttempt p.context ctx' := ⟨ht.owner.1.trans same.1, ht.owner.2.trans same.2⟩
    refine ⟨fun view' target' s'' hr => ?_, fun smooth validate accepts absent x s'' hr => ?_⟩
    · obtain ⟨p', u', rfl, ht'⟩ := answered hr
      obtain rfl := ht'.of_record recorded
      exact ⟨rfl, ht'.view.symm⟩
    · rw [← hroot] at recorded absent hg'
      exact prepare_resumes smooth validate accepts hg' absent recorded owner rfl hr
  · have apart := hfrom'.apart genv
    have claimed := hs.claimed genv solid' (stands lasting) (ht.claimed apart)
    obtain ⟨p', u', rfl, ht'⟩ := answered hr
    obtain rfl := ht'.of_claimed claimed (hd.trans ht.destination)
    refine ⟨⟨ht.owner.1.symm.trans ht'.owner.1, ht.owner.2.symm.trans ht'.owner.2⟩, ?_, ?_⟩
    · exact ht'.key.symm.trans ht.key
    · exact ht'.view.symm.trans ht.view

end

namespace Reference

/-- What is prepared is answered again to the controllers that follow, and not for other attempts;
and another controller in the place of the first would have been given the same target. -/
theorem attempts_ignore_controller_prepared : ∃ v a s',
    Vault.start ["a"] "b" ["t1"] blank = some v ∧
    v.handle = some a ∧
    Runs (fsMachine anything) (a.prepare ⟨"archive", 1, 1⟩ ⟨"b", "o"⟩ view).run
      v.disk (.ok target) s' ∧
    (∃ w', Vault.Happens anything (.powered ["a"]) ["a"]
      [.called (.prepare ⟨"archive", 2, 1⟩ ⟨"b", "o"⟩ view) (.ok target)] v w') ∧
    ∀ v' a', Vault.Steps anything (.powered ["a"]) ["a"]
        ⟨s', some a, .prepare ⟨"archive", 1, 1⟩ ⟨"b", "o"⟩ view :: v.begun⟩ v' →
          v'.handle = some a' →
      (∀ view' target' s'', Runs (fsMachine anything)
        (a'.prepare ⟨"archive", 2, 1⟩ ⟨"b", "o"⟩ view').run v'.disk (.ok target') s'' →
        target' = target ∧ view' = view) ∧
      ∀ archive' view' target' s'', Runs (fsMachine anything)
        (a'.prepare ⟨"archive", 1, 2⟩ archive' view').run v'.disk (.ok target') s'' →
        target'.destination ≠ target.destination := by
  have hs : ((Vault.start ["a"] "b" ["t1"] blank).bind fun v => v.handle.map fun a =>
      ((v.disk.lookup (attemptsDir ["a"]) (preparedPath ⟨"archive", 1, 1⟩ ⟨"b", "o"⟩)).isNone,
        ((a.prepare ⟨"archive", 1, 1⟩ ⟨"b", "o"⟩ view : Io Keyed _).run.exec (fun _ => false) 100
          ["u0", "t2"] v.disk).1.bind Except.toOption)) = some (true, some target) := by
    decide +kernel
  obtain ⟨⟨s, handle, begun⟩, hv, hs⟩ := Option.bind_eq_some_iff.mp hs
  obtain ⟨a, rfl, hs⟩ := Option.map_eq_some_iff.mp hs
  obtain ⟨unprepared, hs⟩ := Prod.mk.inj hs
  obtain ⟨x, he, hx⟩ := Option.bind_eq_some_iff.mp hs
  obtain rfl : x = .ok target := by
    cases x with
    | error => cases hx
    | ok => exact congrArg _ (Option.some.inj hx)
  have run := Prog.exec_runs (π := anything) anything_generous (.inl rfl) he
  have opens : Anchored ["a"] blank := fun _ _ hd => hd
  have hfrom : Vault.From anything (.powered ["a"]) ["a"] ⟨s, some a, begun⟩ :=
    ⟨blank, blank_bare _, .single (Vault.start_step anything_generous opens hv)⟩
  have blind : anything.Blind Content.Alike := fun _ _ u h hu => (congrFun h.issued u).trans hu
  obtain ⟨alike, later⟩ := attempts_ignore_controller blind (Setting.powered_blind ["a"])
    Setting.powered_gentle
  refine ⟨_, a, _, hv, rfl, run, ?_, fun v' a' hs' ha' => ?_⟩
  · have acts : Vault.Acts anything (.powered ["a"]) ["a"] ⟨s, some a, begun⟩
      ⟨_, some a, _ :: begun⟩
        (.called (.prepare ⟨"archive", 1, 1⟩ ⟨"b", "o"⟩ view) (.ok target)) :=
          ⟨a, rfl, run, rfl, rfl⟩
    have events : List.Forall₂ Vault.Event.Alike
        [.called (.prepare ⟨"archive", 1, 1⟩ ⟨"b", "o"⟩ view) (.ok target)]
        [.called (.prepare ⟨"archive", 2, 1⟩ ⟨"b", "o"⟩ view) (.ok target)] :=
      .cons (.prepare ⟨⟨rfl, rfl⟩, by simp⟩) .nil
    obtain ⟨w', hw, -⟩ := alike _ _ _ _ _ events ⟨.refl .refl _, rfl⟩ (.cons acts (.nil _))
    exact ⟨w', hw⟩
  · have later := later a _ _ _ _ _ _ _ v' a' hfrom run hs' ha'
    refine ⟨((later ⟨"archive", 2, 1⟩).1 ⟨rfl, rfl⟩ (.inr ⟨fun _ h => h, ?_⟩)).1, ?_⟩
    · exact Option.isNone_iff_eq_none.mp unprepared
    · intro archive' view' target' s'' hr hd
      have := ((later ⟨"archive", 1, 2⟩).2 (.inr fun _ h => h) _ _ _ _ hr hd).1
      simp [sameAttempt] at this

end Reference

end HsmRs
